import SoftPatchPanel.Hostshmem.Consumer
import SoftPatchPanel.Hostshmem.DeviceOffsets
import SoftPatchPanel.Hostshmem.Hugefile
import Mathlib.Data.List.Dedup
import Mathlib.Data.List.TakeWhile

/-!
# Handing the hugepages over

The hugepage entries of a config list the pages behind its zones with a path for each.  `map_hp_entries` maps every
page from offset 0 of its path, which is the right place only for the first page of a memseg.  So the zones of a config
are handed over exactly when each lies on the first page of its memseg (`handedOver_iff_onFirstPage`).
-/

namespace SoftPatchPanel.Hostshmem

open Lib

/-! ### The hugepage entries of a config -/

private theorem writeHpEntries_free (ms : List CacheEntry) (m i : Nat) (hps : List HpEntry) :
    writeHpEntries ms (freePages m) i hps = hps := by
  induction m generalizing i with
  | zero => rfl
  | succ m ih =>
    rw [freePages_succ, writeHpEntries, ite_cond_eq_true _ _ (eq_true rfl)]
    exact ih _

/-- What the loop over the pages writes into the hugepage entries. -/
theorem writeHpEntries_spec (ms : List CacheEntry) {P : List Memseg} (hP : ∀ p ∈ P, p.addr64 ≠ 0) (m i : Nat)
    (hps : List HpEntry) :
    (writeHpEntries ms (P ++ freePages m) i hps).length = hps.length ∧
      (∀ k p, P[k]? = some p → i + k < hps.length →
        ∃ hp, (writeHpEntries ms (P ++ freePages m) i hps)[i + k]? = some hp ∧ hp.mz.addr64 = p.addr64 ∧
          hp.mz.len = p.len ∧ hp.path = (ms.getD (i + k) {}).filepath) ∧
      ∀ k, k < i ∨ i + P.length ≤ k → (writeHpEntries ms (P ++ freePages m) i hps)[k]? = hps[k]? := by
  induction P generalizing i hps with
  | nil => simp [writeHpEntries_free]
  | cons p P ih =>
    rw [List.cons_append, writeHpEntries, ite_cond_eq_false _ _ (eq_false (hP p (by simp)))]
    simp only
    generalize hentry : (HpEntry.mk _ (ms.getD i {}).filepath) = entry
    obtain ⟨h1, h2, h3⟩ := ih (fun q hq => hP q (by simp [hq])) (i + 1) (hps.set i entry)
    refine ⟨by simpa using h1, fun k q hk hlt => ?_, fun k hk => ?_⟩
    · cases k with
      | zero =>
        cases hk
        refine ⟨entry, ?_, ?_⟩
        · rw [h3 (i + 0) (Or.inl (by omega)), Nat.add_zero, List.getElem?_set_self (by omega)]
        · rw [← hentry]; exact ⟨rfl, rfl, rfl⟩
      | succ k =>
        obtain ⟨hp, hhp⟩ := h2 k q (by simpa using hk) (by rw [List.length_set]; omega)
        exact ⟨hp, by simpa [Nat.add_assoc, Nat.add_comm 1 k] using hhp⟩
    · rw [List.length_cons] at hk
      rw [h3 k (by omega), List.getElem?_set_ne (by omega)]

/-- The page starts a memseg. -/
def AtStart (L : Layout) (p : Memseg) : Prop := ∃ s ∈ L.segs, 0 < s.len ∧ p.addr64.toNat = s.virt

/-- The hugepage entries of a config are those of the pages `P`, in this order.  When all pages start their memsegs,
the paths are right as well. -/
structure HpEntriesOf (L : Layout) (file : Seg → CStr) (config : Config) (P : List Memseg) : Prop where
  length : config.hpEntries.length = hostshmemMaxHugepages
  page : ∀ i p, P[i]? = some p → i < hostshmemMaxHugepages → ∃ hp, config.hpEntries[i]? = some hp ∧
    hp.mz.addr64 = p.addr64 ∧ hp.mz.len = p.len ∧
    ((∀ q ∈ P, AtStart L q) → ∃ s ∈ L.segs, 0 < s.len ∧ p.addr64.toNat = s.virt ∧ hp.path = file s)
  empty : ∀ i hp, P.length ≤ i → config.hpEntries[i]? = some hp → hp.mz.addr64 = 0

/-- What a call of the library finds in its surroundings. -/
def GoodEnv (L : Layout) (file : Seg → CStr) (env : Env) : Prop :=
  SortsEntries env.qsort ∧ ∃ lines, ShowsMaps L file lines ∧ env.hugefile = fun v => getHugefileByVirtAddr v lines

/-- The zones that the library hands over: those of the memory of the process. -/
def GoodZone (L : Layout) (mz : Memzone) : Prop := L.Holds mz ∧ 0 < mz.len.toNat

section

variable {L : Layout} {file : Seg → CStr}

private theorem hugefile_of_atStart {lines : List MapsLine} (hm : ShowsMaps L file lines) {p : Memseg}
    (hp : AtStart L p) :
    ∃ s ∈ L.segs, 0 < s.len ∧ p.addr64.toNat = s.virt ∧
      getHugefileByVirtAddr p.addr64 lines = some (file s, 0) := by
  obtain ⟨s, hs, hpos, haddr⟩ := hp
  refine ⟨s, hs, hpos, haddr, ?_⟩
  have hv : p.addr64 = UInt64.ofNat s.virt := by rw [← UInt64.toNat_inj, Seg.toNat_virt hs, haddr]
  rw [getHugefileByVirtAddr_eq hm hs (by omega) (by omega), hv, UInt64.sub_self]

theorem subset_of_perm {es es' : List Entry} {P P' : List Memseg} {mz : Memzone} (hP : Packed L es P)
    (hP' : Packed L es' P') (hperm : (es'.map Entry.mz).Perm (es.map Entry.mz ++ [mz])) : P ⊆ P' := by
  intro p hp
  obtain ⟨e, he, hpe⟩ := hP.mem_zone p hp
  have : e.mz ∈ es'.map Entry.mz :=
    hperm.symm.subset (List.mem_append_left _ (List.mem_map_of_mem he))
  obtain ⟨e', he', hmz⟩ := List.mem_map.1 this
  exact (hP'.infix_of_zone e' he').subset (by rw [hmz]; exact hpe)

/-- Every config the library builds lists the pages behind its zones. -/
private theorem built_hpEntriesOf {config : Config} (h : Built (GoodEnv L file) (GoodZone L) config) :
    ∃ es E P, config.Holds L es E ∧ Packed L es P ∧ HpEntriesOf L file config P := by
  induction h with
  | create name =>
    refine ⟨_, _, [], Config.create_holds L name, ⟨by simp, by simp, by simp, by simp, by simp, by simp⟩,
      by simp [Config.create], by simp, fun i hp _ hget => ?_⟩
    rw [List.eq_of_mem_replicate (List.mem_of_getElem? hget)]
  | add env mz hE hZ hadd _ ih =>
    obtain ⟨es, E, P, hc, hP, hhp⟩ := ih
    obtain ⟨hq, lines, hlines, hfile⟩ := hE
    obtain ⟨es', E', P', m, hc', hperm, -, hP', -, -, hfour, hnew⟩ :=
      addMemzoneToMetadata_packed hq hc hZ.1 hZ.2 hadd
    have hlen : P.length ≤ P'.length := (List.subperm_of_subset hP.nodup (subset_of_perm hP hP' hperm)).length_le
    obtain ⟨h1, h2, h3⟩ := writeHpEntries_spec _ hP'.ne_zero m 0 _
    rw [← hnew, hhp.length] at h1
    refine ⟨es', E', P', hc', hP', h1, fun i p hi hlt => ?_, fun i hp hle hget => ?_⟩
    · obtain ⟨hp, hget, haddr, hplen, hpath⟩ := h2 i p hi (by rw [hhp.length]; omega)
      rw [Nat.zero_add, ← hnew] at hget
      rw [Nat.zero_add] at hpath
      refine ⟨hp, hget, haddr, hplen, fun hstart => ?_⟩
      -- nothing is merged, so cache entry `i` is that of page `i`
      rw [hfile] at hfour
      have hcache := fourthPass_unmerged hP'.used m hc.cache (Nat.zero_le _) (fun q hq r hr => by
        obtain ⟨s, -, -, -, hs⟩ := hugefile_of_atStart hlines (hstart q hq)
        rw [hs] at hr
        cases hr; rfl) (fun _ h0 => absurd rfl h0) hfour
      rw [List.take_zero, List.nil_append, Nat.zero_add] at hcache
      obtain ⟨s, hs, hspos, hvirt, hsfile⟩ := hugefile_of_atStart hlines (hstart p (List.mem_of_getElem? hi))
      have hilt : i < P'.length := (List.getElem?_eq_some_iff.1 hi).1
      have hci := congrArg (·[i]?) hcache
      simp only [List.getElem?_map, hi, Option.map_some, List.getElem?_take_of_lt hilt] at hci
      rw [List.getD_eq_getElem?_getD, hci, Option.getD_some, cacheEntry_of_some hsfile] at hpath
      exact ⟨s, hs, hspos, hvirt, hpath⟩
    · rw [hnew, h3 i (Or.inr (by omega))] at hget
      exact hhp.empty i hp (by omega) hget

/-! ### The entries that get mapped -/

variable {config : Config} {P : List Memseg} {es : List Entry}

private theorem HpEntriesOf.exists_page (h : HpEntriesOf L file config P) {hp : HpEntry}
    (hhp : hp ∈ usedEntries config.hpEntries) :
    ∃ i p, i < hostshmemMaxHugepages ∧ config.hpEntries[i]? = some hp ∧ P[i]? = some p ∧
      hp.mz.addr64 = p.addr64 ∧ hp.mz.len = p.len ∧
      ((∀ q ∈ P, AtStart L q) → ∃ s ∈ L.segs, 0 < s.len ∧ p.addr64.toNat = s.virt ∧ hp.path = file s) := by
  have hne : hp.mz.addr64 ≠ 0 := by simpa using List.mem_takeWhile_imp hhp
  obtain ⟨i, hi⟩ := List.mem_iff_getElem?.1 ((List.takeWhile_sublist _).subset hhp)
  have hlt : i < hostshmemMaxHugepages := by rw [← h.length]; exact (List.getElem?_eq_some_iff.1 hi).1
  have hiP : i < P.length := by
    by_contra hle
    exact hne (h.empty i hp (by omega) hi)
  obtain ⟨hp', hget, hrest⟩ := h.page i _ (List.getElem?_eq_getElem hiP) hlt
  rw [hi] at hget
  cases hget
  exact ⟨i, _, hlt, hi, List.getElem?_eq_getElem hiP, hrest⟩

private theorem HpEntriesOf.exists_entry (h : HpEntriesOf L file config P) (hP : Packed L es P)
    (h32 : P.length ≤ hostshmemMaxHugepages) {p : Memseg} (hp : p ∈ P) :
    ∃ hp ∈ usedEntries config.hpEntries, hp.mz.addr64 = p.addr64 ∧ hp.mz.len = p.len ∧
      ((∀ q ∈ P, AtStart L q) → ∃ s ∈ L.segs, 0 < s.len ∧ p.addr64.toNat = s.virt ∧ hp.path = file s) := by
  obtain ⟨i, hi⟩ := List.mem_iff_getElem?.1 hp
  have hilt : i < P.length := (List.getElem?_eq_some_iff.1 hi).1
  obtain ⟨hp', hget, hrest⟩ := h.page i p hi (by omega)
  refine ⟨hp', ?_, hrest⟩
  have hall : ∀ a ∈ config.hpEntries.take P.length, a.mz.addr64 ≠ 0 := by
    intro a ha
    obtain ⟨k, hk⟩ := List.mem_iff_getElem?.1 ha
    have hklt : k < P.length := by
      have := (List.getElem?_eq_some_iff.1 hk).1
      rw [List.length_take] at this
      omega
    rw [List.getElem?_take_of_lt hklt] at hk
    obtain ⟨b, hb, haddr, -⟩ := h.page k _ (List.getElem?_eq_getElem hklt) (by omega)
    rw [hk] at hb
    cases hb
    rw [haddr]
    exact hP.ne_zero _ (List.getElem_mem hklt)
  have hused : usedEntries config.hpEntries =
      config.hpEntries.take P.length ++ usedEntries (config.hpEntries.drop P.length) := by
    conv => lhs; rw [← List.take_append_drop P.length config.hpEntries]
    exact List.takeWhile_append_of_pos (by simpa using hall)
  rw [hused]
  refine List.mem_append_left _ (List.mem_iff_getElem?.2 ⟨i, ?_⟩)
  rw [List.getElem?_take_of_lt hilt, hget]

/-- The consumer finds the ranges of the entries free. -/
private theorem HpEntriesOf.ready (h : HpEntriesOf L file config P) (hP : Packed L es P) {maps : List Mapping}
    (hfree : ∀ s ∈ L.segs, ∀ m ∈ maps,
      m.addr.toNat + m.len.toNat ≤ s.virt ∨ s.virt + s.len ≤ m.addr.toNat) : Ready config.hpEntries maps := by
  refine ⟨fun hp hhp => ?_, ?_, fun hp hhp m hm hmeets => ?_⟩
  · obtain ⟨i, p, -, -, hi, -, hlen, -⟩ := h.exists_page hhp
    rw [hlen]
    exact (hP.isPage p (List.mem_of_getElem? hi)).len_pos
  · -- entries at different places are those of different pages
    refine List.pairwise_iff_getElem.2 fun i j hi hj hij => ?_
    have hprefix : usedEntries config.hpEntries <+: config.hpEntries := List.takeWhile_prefix _
    have hgeti := hprefix.getElem hi
    have hgetj := hprefix.getElem hj
    have hilt := hprefix.length_le
    have hjP : j < P.length := by
      by_contra hle
      have hne : (usedEntries config.hpEntries)[j].mz.addr64 ≠ 0 := by
        simpa using List.mem_takeWhile_imp (List.getElem_mem hj)
      exact hne (h.empty j _ (by omega) (by rw [hgetj]; exact List.getElem?_eq_getElem _))
    have hiP : i < P.length := by omega
    have hlen := h.length
    obtain ⟨a, ha, haddr, halen, -⟩ := h.page i _ (List.getElem?_eq_getElem hiP) (by omega)
    obtain ⟨b, hb, hbaddr, hblen, -⟩ := h.page j _ (List.getElem?_eq_getElem hjP) (by omega)
    rw [List.getElem?_eq_getElem (by omega), Option.some.injEq, ← hgeti] at ha
    rw [List.getElem?_eq_getElem (by omega), Option.some.injEq, ← hgetj] at hb
    rw [ha, hb, HpEntry.Disjoint, haddr, halen, hbaddr, hblen]
    rcases (hP.isPage _ (List.getElem_mem hiP)).eq_or_disjoint (hP.isPage _ (List.getElem_mem hjP)) with heq | hdis
    · have := (hP.nodup.getElem_inj_iff).1 heq
      omega
    · exact hdis.1
  · obtain ⟨i, p, -, -, hi, haddr, hlen, -⟩ := h.exists_page hhp
    obtain ⟨s, hs, j, h1, -, h2, h3, -⟩ := hP.isPage p (List.mem_of_getElem? hi)
    obtain ⟨h4, h5⟩ := hmeets
    rw [haddr] at h4 h5
    rw [hlen] at h4
    rw [Nat.add_mul, Nat.one_mul] at h3
    rcases hfree s hs m hm with h | h <;> omega

/-! ### The hand-over -/

/-- The hugepages that the zones of a config touch. -/
def Config.touchedPages (config : Config) : List Memseg :=
  ((config.entry.filter (fun e => e.mz.addr64 ≠ 0)).flatMap (fun e => e.mz.pages)).dedup

/-- Every byte of every exported zone shows the file byte that backs it in the exporting process. -/
def HandedOver (L : Layout) (file : Seg → CStr) (config : Config) (maps : List Mapping) : Prop :=
  ∀ e ∈ config.entry, e.mz.addr64 ≠ 0 → ∀ k < e.mz.len.toNat,
    shows maps (e.mz.addr64 + UInt64.ofNat k) =
      (L.backing file (e.mz.addr64 + UInt64.ofNat k)).map (fun r => (some r.1, r.2))

/-- The zone lies on the first page of its memseg. -/
def OnFirstPage (L : Layout) (mz : Memzone) : Prop :=
  ∃ s ∈ L.segs, s.Holds mz ∧ mz.addr64.toNat + mz.len.toNat ≤ s.virt + s.hugepageSz

/-- The process that maps the pages: it can open the metadata and the files of the memsegs, and its own memory is
elsewhere. -/
structure GoodConsumer (L : Layout) (file : Seg → CStr) (os : Os) (maps : List Mapping) : Prop where
  metadata : os.metadata
  devZero : os.devZero
  canOpen : ∀ s ∈ L.segs, os.canOpen (file s)
  free : ∀ s ∈ L.segs, ∀ m ∈ maps, m.addr.toNat + m.len.toNat ≤ s.virt ∨ s.virt + s.len ≤ m.addr.toNat

private theorem Packed.length_le {E : List Entry} (hP : Packed L es P) (hc : config.Holds L es E) :
    P.length ≤ config.touchedPages.length := by
  refine (List.subperm_of_subset hP.nodup fun p hp => ?_).length_le
  obtain ⟨e, he, hpe⟩ := hP.mem_zone p hp
  rw [Config.touchedPages, List.mem_dedup, List.mem_flatMap]
  refine ⟨e, List.mem_filter.2 ⟨by rw [hc.entry]; exact List.mem_append_left _ he, ?_⟩, hpe⟩
  simpa using hc.zones.ne_zero e he

private theorem ZoneAt.exists_page {mz : Memzone} {s : Seg} {j n : Nat} (h : ZoneAt L mz s j n) {v : Nat}
    (h1 : mz.addr64.toNat ≤ v) (h2 : v < mz.addr64.toNat + mz.len.toNat) :
    ∃ p ∈ mz.pages, p.addr64.toNat ≤ v ∧ v < p.addr64.toNat + p.len.toNat := by
  have hhp := h.hp_pos
  have hstart := h.start_le
  have hend := h.end_le
  obtain ⟨t, rfl⟩ : ∃ t, v = mz.span.start.toNat + t := ⟨v - mz.span.start.toNat, by omega⟩
  have hdiv := Nat.div_add_mod t s.hugepageSz
  have hmod := Nat.mod_lt t hhp
  rw [Nat.mul_comm] at hdiv
  have hi : t / s.hugepageSz < n := by
    rw [Nat.div_lt_iff_lt_mul hhp]; omega
  obtain ⟨p, hget, haddr, -, hlen, -⟩ := h.getElem?_pages hi
  refine ⟨p, List.mem_of_getElem? hget, by omega, ?_⟩
  rw [haddr, hlen, h.hugepageSz]
  omega

private theorem ZoneAt.toNat_add {mz : Memzone} {s : Seg} {j n : Nat} (h : ZoneAt L mz s j n) {k : Nat}
    (hk : k < mz.len.toNat) : (mz.addr64 + UInt64.ofNat k).toNat = mz.addr64.toNat + k := by
  have hend := h.end_le
  have hstart := h.start
  have hfits := h.fits
  have h64 := L.virt_end s h.mem
  rw [UInt64.toNat_add, UInt64.toNat_ofNat_of_lt' (by show k < 2 ^ 64; omega), Nat.mod_eq_of_lt (by omega)]

private theorem ZoneAt.in_seg {mz : Memzone} {s : Seg} {j n : Nat} (h : ZoneAt L mz s j n) :
    s.virt ≤ mz.addr64.toNat ∧ mz.addr64.toNat + mz.len.toNat ≤ s.virt + s.len := by
  have hstart := h.start
  have hle := h.start_le
  have hend := h.end_le
  have hfits := h.fits
  exact ⟨by omega, by omega⟩

private theorem ZoneAt.atStart {mz : Memzone} {s : Seg} {j n : Nat} (h : ZoneAt L mz s j n)
    (hpos : 0 < mz.len.toNat) (hfirst : OnFirstPage L mz) {p : Memseg} (hp : p ∈ mz.pages) : AtStart L p := by
  obtain ⟨t, ht, htz, h2⟩ := hfirst
  have h1 := htz.virt_le
  have h3 := htz.end_le
  have hseg := h.in_seg
  have hhp := h.hp_pos
  have hst : t = s := by
    by_contra hne
    rcases L.virt_disjoint.forall ht h.mem hne with hd | hd <;> omega
  subst hst
  obtain ⟨-, i, hi, haddr, -⟩ := h.isPage hp
  have hstart := h.start
  have hle := h.start_le
  have hlt := h.lt_start
  have hend := h.lt_end
  have hj : j = 0 := by
    by_contra hj0
    have := Nat.le_mul_of_pos_left t.hugepageSz (Nat.pos_of_ne_zero hj0)
    omega
  subst hj
  have hn : n = 1 := by
    by_contra hn1
    have hpos' := h.pos
    have := Nat.mul_le_mul_right t.hugepageSz (show 2 ≤ n by omega)
    omega
  have hi0 : i = 0 := by omega
  subst hi0
  exact ⟨t, h.mem, by omega, by omega⟩

private theorem lt_of_handedOver {E : List Entry} {os : Os} {maps : List Mapping} (hc : config.Holds L es E)
    (hP : Packed L es P) (hhp : HpEntriesOf L file config P) (h32 : P.length ≤ hostshmemMaxHugepages)
    (hfree : ∀ s ∈ L.segs, ∀ m ∈ maps, m.addr.toNat + m.len.toNat ≤ s.virt ∨ s.virt + s.len ≤ m.addr.toNat)
    (hover : HandedOver L file config (attach os config maps)) {e : Entry} (he : e ∈ es) {s : Seg} {j n : Nat}
    (hat : ZoneAt L e.mz s j n) {k : Nat} (hk : k < e.mz.len.toNat) :
    e.mz.addr64.toNat + k < s.virt + s.hugepageSz := by
  have hv := hat.toNat_add hk
  have hseg := hat.in_seg
  obtain ⟨p, hpz, hple, hplt⟩ := hat.exists_page (v := e.mz.addr64.toNat + k) (by omega) (by omega)
  obtain ⟨a, ha, haddr, halen, -⟩ := hhp.exists_entry hP h32 ((hP.infix_of_zone e he).subset hpz)
  have hshow := hover e (by rw [hc.entry]; exact List.mem_append_left _ he) (hc.zones.ne_zero e he) k hk
  rw [Layout.backing_eq hat.mem (by omega) (by omega), Option.map_some] at hshow
  have hhas : a.mapping.Has (e.mz.addr64 + UInt64.ofNat k) := by
    rw [Mapping.Has, HpEntry.mapping, haddr, halen, hv]
    exact ⟨hple, hplt⟩
  -- the offset shown is the distance from the page, the right one the distance from the memseg
  have hoff := shows_attach_offset hhp.length (hhp.ready hP hfree) ha hhas hshow
  rw [haddr] at hoff
  have hstart : p.addr64 = UInt64.ofNat s.virt := ((UInt64.sub_right_inj _).1 hoff).symm
  have hplen : p.len = e.mz.hugepageSz := len_of_mem_runPages hpz
  rw [hstart, Seg.toNat_virt hat.mem, hplen, hat.hugepageSz] at hplt
  exact hplt

private theorem handedOver_of_atStart {E : List Entry} {os : Os} {maps : List Mapping} (hc : config.Holds L es E)
    (hP : Packed L es P) (hhp : HpEntriesOf L file config P) (h32 : P.length ≤ hostshmemMaxHugepages)
    (hcons : GoodConsumer L file os maps) (hstart : ∀ p ∈ P, AtStart L p) :
    HandedOver L file config (attach os config maps) := by
  intro e he hne k hk
  have hes : e ∈ es := by
    rw [hc.entry] at he
    rcases List.mem_append.1 he with h | h
    · exact h
    · exact absurd (hc.free e h) hne
  obtain ⟨s, j, n, hat⟩ := L.zoneAt (hc.zones.holds e hes) (hc.zones.pos e hes)
  have hv := hat.toNat_add hk
  have hseg := hat.in_seg
  obtain ⟨p, hpz, hple, hplt⟩ := hat.exists_page (v := e.mz.addr64.toNat + k) (by omega) (by omega)
  obtain ⟨a, ha, haddr, halen, hpath⟩ := hhp.exists_entry hP h32 ((hP.infix_of_zone e hes).subset hpz)
  obtain ⟨t, ht, htpos, hvirt, hfile⟩ := hpath hstart
  have hhas : a.mapping.Has (e.mz.addr64 + UInt64.ofNat k) := by
    rw [Mapping.Has, HpEntry.mapping, haddr, halen, hv]
    exact ⟨hple, hplt⟩
  have hopen : ∀ h ∈ usedEntries config.hpEntries, os.canOpen h.path := by
    intro h hh
    obtain ⟨i, q, -, -, -, -, -, hqpath⟩ := hhp.exists_page hh
    obtain ⟨u, hu, -, -, hu'⟩ := hqpath hstart
    rw [hu']
    exact hcons.canOpen u hu
  rw [shows_attach_of_canOpen hhp.length (hhp.ready hP hcons.free) hcons.metadata hcons.devZero hopen ha hhas]
  -- the page starts the memseg of the zone
  have hts : t = s := by
    obtain ⟨-, i, hi, hpaddr, -⟩ := hat.isPage hpz
    have hi' := Nat.mul_le_mul_right s.hugepageSz (show i + 1 ≤ n by omega)
    rw [Nat.add_mul, Nat.one_mul] at hi'
    have hfits := hat.fits
    have hst := hat.start
    have hhp0 := hat.hp_pos
    by_contra hne
    rcases L.virt_disjoint.forall ht hat.mem hne with hd | hd <;> omega
  subst hts
  rw [Layout.backing_eq ht (by omega) (by omega), hfile, haddr]
  simp only [Option.map_some, Option.some.injEq, Prod.mk.injEq, true_and]
  congr 1
  rw [← UInt64.toNat_inj, hvirt, Seg.toNat_virt ht]

end

/-- The zones exported by successful calls of the library are handed over exactly when each of them lies on the first
page of its memseg. -/
theorem handedOver_iff_onFirstPage (L : Layout) (file : Seg → CStr) {p₀ p : Process}
    (hconfigs : ∀ config ∈ p₀.configs, ∃ name, config = Config.create name)
    (hzones : ∀ mz ∈ p₀.memzone, GoodZone L mz) (hrun : Reached (GoodEnv L file) p₀ p) {config : Config}
    (hconfig : config ∈ p.configs) (h32 : config.touchedPages.length ≤ hostshmemMaxHugepages) {os : Os}
    {maps : List Mapping} (hcons : GoodConsumer L file os maps) :
    HandedOver L file config (attach os config maps) ↔
      ∀ e ∈ config.entry, e.mz.addr64 ≠ 0 → OnFirstPage L e.mz := by
  have hioremap : ∀ mz a, GoodZone L mz → GoodZone L { mz with ioremapAddr := a } := by
    rintro mz a ⟨⟨s, hs, h1, h2, h3, h4⟩, hpos⟩
    exact ⟨⟨s, hs, h1, h2, h3, h4⟩, hpos⟩
  obtain ⟨es, E, P, hc, hP, hhp⟩ := built_hpEntriesOf (hrun.built hioremap hconfigs hzones config hconfig)
  have hlen := (hP.length_le hc).trans h32
  constructor
  · intro hover e he hne
    have hes : e ∈ es := by
      rw [hc.entry] at he
      rcases List.mem_append.1 he with h | h
      · exact h
      · exact absurd (hc.free e h) hne
    obtain ⟨s, hs, hsz⟩ := hc.zones.holds e hes
    have hpos := hc.zones.pos e hes
    obtain ⟨t, j, n, hat⟩ := L.zoneAt ⟨s, hs, hsz⟩ hpos
    have hseg := hat.in_seg
    have hst : s = t := by
      by_contra hst
      have h1 := hsz.virt_le
      have h2 := hsz.end_le
      rcases L.virt_disjoint.forall hs hat.mem hst with hd | hd <;> omega
    subst hst
    have hlast := lt_of_handedOver hc hP hhp hlen hcons.free hover hes hat (k := e.mz.len.toNat - 1) (by omega)
    exact ⟨s, hs, hsz, by omega⟩
  · intro hfirst
    refine handedOver_of_atStart hc hP hhp hlen hcons fun q hq => ?_
    obtain ⟨e, he, hqe⟩ := hP.mem_zone q hq
    obtain ⟨s, j, n, hat⟩ := L.zoneAt (hc.zones.holds e he) (hc.zones.pos e he)
    exact hat.atStart (hc.zones.pos e he)
      (hfirst e (by rw [hc.entry]; exact List.mem_append_left _ he) (hc.zones.ne_zero e he)) hqe

/-! ### A memseg of two pages -/

def twoPagesFile (_ : Seg) : CStr := rtemap0

def twoPagesLines : List MapsLine := [⟨0x7f0000000000, 0x7f0000400000, some rtemap0⟩]

private theorem twoPages_showsMaps : ShowsMaps twoPages twoPagesFile twoPagesLines := by
  constructor
  · intro s hs
    rw [List.mem_singleton.1 hs]
    decide +kernel
  · intro line hline s hs _ _
    rw [List.mem_singleton.1 hline, List.mem_singleton.1 hs]
    decide +kernel

def mapsEnv : Env :=
  { qsort := sortEntries, hugefile := fun v => getHugefileByVirtAddr v twoPagesLines, malloc := true }

private theorem mapsEnv_good : GoodEnv twoPages twoPagesFile mapsEnv :=
  ⟨sortEntries_sorts, twoPagesLines, twoPages_showsMaps, rfl⟩

/-- A process with one zone and one config. -/
def oneZone (mz : Memzone) : Process := { configs := [Config.create "pp".toList], memzone := [mz] }

def addIt : Call := .addMemzone mapsEnv 0 "pp".toList

/-- A consumer with no memory of its own that can open the file of the memseg. -/
def openOs : Os :=
  { metadata := true, devZero := true, canOpen := fun f => f = rtemap0, elsewhere := fun _ _ _ => none }

private theorem openOs_good : GoodConsumer twoPages twoPagesFile openOs [] := 
  ⟨rfl, rfl, fun s _ => decide_eq_true (p := twoPagesFile s = rtemap0) rfl, fun _ _ _ hm => absurd hm List.not_mem_nil⟩

/-- A zone of 4 kB at the start of the memseg. -/
def firstZone : Memzone := { addr64 := 0x7f0000000000, physAddr := 0x100000000, len := 0x1000, hugepageSz := 0x200000 }

theorem firstZone_handedOver :
    ∃ config : Config, (∃ e ∈ config.entry, e.mz = firstZone) ∧
      HandedOver twoPages twoPagesFile config (attach openOs config []) := by
  have hok : (addIt.run (oneZone firstZone)).2 = none := by decide +kernel
  have hone : (addIt.run (oneZone firstZone)).1.configs.length = 1 := by decide +kernel
  have hmem : ∀ config ∈ (addIt.run (oneZone firstZone)).1.configs,
      (∃ e ∈ config.entry, e.mz = firstZone) ∧
      (∀ e ∈ config.entry, e.mz.addr64 ≠ 0 → e.mz = firstZone) ∧
      config.touchedPages.length ≤ hostshmemMaxHugepages := by decide +kernel
  generalize hrun : addIt.run (oneZone firstZone) = result at hok hone hmem
  obtain ⟨p, failure⟩ := result
  cases hok
  obtain ⟨config, hconfig⟩ : ∃ config, config ∈ p.configs := List.exists_mem_of_length_pos (by rw [hone]; decide)
  obtain ⟨h1, h2, h3⟩ := hmem config hconfig
  have hzone : twoPages.Holds firstZone :=
    ⟨_, List.mem_singleton_self _, by decide, by decide, by decide, by decide⟩
  have hreach : Reached (GoodEnv twoPages twoPagesFile) (oneZone firstZone) p :=
    Reached.call addIt (by simpa [addIt, Call.envs] using mapsEnv_good) hrun Reached.start
  refine ⟨config, h1, (handedOver_iff_onFirstPage twoPages twoPagesFile ?_ ?_ hreach hconfig h3 openOs_good).2 ?_⟩
  · intro c hc
    exact ⟨_, List.mem_singleton.1 hc⟩
  · intro mz hmz
    rw [List.mem_singleton.1 hmz]
    exact ⟨hzone, by decide⟩
  · intro e he hne
    rw [h2 e he hne]
    exact ⟨_, List.mem_singleton_self _, ⟨by decide, by decide, by decide, by decide⟩, by decide⟩

/-- The zone across the two pages is not handed over: the path of the second page is empty, so its half of the
zone is left with `/dev/zero`. -/
theorem acrossPages_not_handedOver :
    ∃ p : Process, Reached (GoodEnv twoPages twoPagesFile) (oneZone acrossPages) p ∧
      ∃ config ∈ p.configs, config.touchedPages.length ≤ hostshmemMaxHugepages ∧
        GoodZone twoPages acrossPages ∧ GoodConsumer twoPages twoPagesFile openOs [] ∧
        shows (attach openOs config []) 0x7f0000200000 = some (none, 0) ∧
        twoPages.backing twoPagesFile 0x7f0000200000 = some (rtemap0, 0x200000) ∧
        ¬HandedOver twoPages twoPagesFile config (attach openOs config []) := by
  have hok : (addIt.run (oneZone acrossPages)).2 = none := by decide +kernel
  have hone : (addIt.run (oneZone acrossPages)).1.configs.length = 1 := by decide +kernel
  have hmem : ∀ config ∈ (addIt.run (oneZone acrossPages)).1.configs,
      (∃ e ∈ config.entry, e.mz = acrossPages) ∧ config.touchedPages.length ≤ hostshmemMaxHugepages ∧
      shows (attach openOs config []) 0x7f0000200000 = some (none, 0) := by
    decide +kernel
  generalize hrun : addIt.run (oneZone acrossPages) = result at hok hone hmem
  obtain ⟨p, failure⟩ := result
  cases hok
  obtain ⟨config, hconfig⟩ : ∃ config, config ∈ p.configs := List.exists_mem_of_length_pos (by rw [hone]; decide)
  obtain ⟨⟨e, he, hmz⟩, h2, h3⟩ := hmem config hconfig
  have hback : twoPages.backing twoPagesFile 0x7f0000200000 = some (rtemap0, 0x200000) := by
    decide +kernel
  refine ⟨p, Reached.call addIt (by simpa [addIt, Call.envs] using mapsEnv_good) hrun Reached.start, config, hconfig,
    h2, ⟨twoPages_holds, by decide⟩, openOs_good, h3, hback, fun hover => ?_⟩
  have hbyte := hover e he (by rw [hmz]; decide) 0x1000 (by rw [hmz]; decide +kernel)
  have hv : e.mz.addr64 + UInt64.ofNat 0x1000 = 0x7f0000200000 := by rw [hmz]; decide
  rw [hv, h3, hback] at hbyte
  exact absurd hbyte (by decide)

end SoftPatchPanel.Hostshmem

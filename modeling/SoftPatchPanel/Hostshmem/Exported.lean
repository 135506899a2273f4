import SoftPatchPanel.Hostshmem.CacheRuns
import SoftPatchPanel.Hostshmem.Cmdline

/-!
# The bytes of the printed segments

The command line lists the memseg cache up to its first empty entry.  Entries of an earlier call may follow the runs of
the hugepages there, but each byte of an exported zone is found among the runs (`Config.Laid.segments`).
-/

namespace SoftPatchPanel.Hostshmem

open Lib

section

variable {L : Layout} {file : Seg → CStr} {config : Config}

private theorem GoodEnv.backs {env : Env} (hE : GoodEnv L file env) :
    Backs L (fun v => (L.backing file v).getD ([], 0)) env.hugefile := by
  obtain ⟨-, lines, hlines, hfile⟩ := hE
  intro p hp r hr d hd
  have hend := hp.virt_end
  obtain ⟨s, hs, j, haddr, -, hlen, hj, -⟩ := hp
  rw [Nat.add_mul, Nat.one_mul] at hj
  unfold Memseg.size at hd
  have hnext : (p.addr64 + UInt64.ofNat d).toNat = p.addr64.toNat + d := by
    rw [UInt64.toNat_add, UInt64.toNat_ofNat', Nat.mod_eq_of_lt (b := 2 ^ 64) (a := d) (by omega),
      Nat.mod_eq_of_lt (by omega)]
  rw [hfile] at hr
  simp only at hr
  rw [getHugefileByVirtAddr_eq hlines hs (by omega) (by omega)] at hr
  cases hr
  simp only
  rw [Layout.backing_eq hs (by omega) (by omega), Option.getD_some]
  refine Prod.ext rfl ?_
  simp only
  rw [UInt64.sub_eq_add_neg, UInt64.sub_eq_add_neg, UInt64.add_assoc, UInt64.add_comm (UInt64.ofNat d),
    UInt64.add_assoc]

/-- An address of a zone of the layout is backed by a file. -/
theorem Layout.backing_isSome (file : Seg → CStr) {mz : Memzone} (hmz : L.Holds mz) {k : Nat} (hk : k < mz.len.toNat) :
    (L.backing file (mz.addr64 + UInt64.ofNat k)).isSome := by
  obtain ⟨s, hs, hvirt, hend, -, -⟩ := hmz
  have hlt := L.virt_end s hs
  have hnext : (mz.addr64 + UInt64.ofNat k).toNat = mz.addr64.toNat + k := by
    rw [UInt64.toNat_add, UInt64.toNat_ofNat', Nat.mod_eq_of_lt (b := 2 ^ 64) (a := k) (by omega),
      Nat.mod_eq_of_lt (by omega)]
  rw [Layout.backing_eq hs (by omega) (by omega)]
  rfl

/-- The bytes of a zone lie on its pages. -/
private theorem offset_add_lt {es : List Entry} {P : List Memseg} {m : Nat} (hP : Packed L es P) (hzones : ZonesOk L es)
    {e : Entry} (he : e ∈ es) (hoff : findOffset e.mz.addr64 (P ++ freePages m) 0 = some e.offset) {k : Nat}
    (hk : k < e.mz.len.toNat) : e.offset.toNat + k < sizeSum P := by
  obtain ⟨s, j, n, hat⟩ := L.zoneAt (hzones.holds e he) (hzones.pos e he)
  obtain ⟨A, B, rfl⟩ := hP.infix_of_zone e he
  obtain ⟨off, hfind, hval⟩ := findOffset_eq hat hP.isPage hP.nodup hP.sizeSum_lt m
  rw [hfind] at hoff
  cases hoff
  have hall : ∀ p ∈ e.mz.pages, p.size = s.hugepageSz := by
    intro p hp
    rw [← hat.hugepageSz]
    exact congrArg UInt64.toNat (len_of_mem_runPages hp)
  have hsize : sizeSum e.mz.pages = n * s.hugepageSz := by
    rw [sizeSum, List.map_congr_left hall, List.map_const', List.sum_replicate_nat, hat.length_pages]
  have hstart := hat.start_le
  have hend := hat.end_le
  rw [sizeSum_append, sizeSum_append, hsize]
  omega

/-- The printed segments start with the runs of the pages, and so does the whole cache. -/
private theorem CacheOf.segments {ms₀ : List CacheEntry} {Q : List (Piece CStr)} (h : CacheOf ms₀ config.memsegCache Q)
    (hpos : ∀ s ∈ Q, 0 < s.len) :
    (∃ rest, config.segments.map CacheEntry.piece = coalesce Q ++ rest) ∧
      ∃ rest, config.memsegCache.map CacheEntry.piece = coalesce Q ++ rest := by
  have hruns : ∀ c ∈ config.memsegCache.take (coalesce Q).length, c.len ≠ 0 := by
    intro c hc h0
    have := pos_of_mem_coalesce hpos (y := c.piece) (by rw [← h.runs]; exact List.mem_map_of_mem hc)
    simp [CacheEntry.piece, h0] at this
  constructor
  · refine ⟨((config.memsegCache.drop (coalesce Q).length).takeWhile (fun c => c.len ≠ 0)).map CacheEntry.piece, ?_⟩
    unfold Config.segments
    conv => lhs; rw [← List.take_append_drop (coalesce Q).length config.memsegCache]
    rw [List.takeWhile_append_of_pos (fun c hc => by simpa using hruns c hc), List.map_append, h.runs]
  · refine ⟨(config.memsegCache.drop (coalesce Q).length).map CacheEntry.piece, ?_⟩
    conv => lhs; rw [← List.take_append_drop (coalesce Q).length config.memsegCache]
    rw [List.map_append, h.runs]

/-- The pages behind the zones of a config, with the cache that was written for them. -/
structure Config.Laid (L : Layout) (file : Seg → CStr) (config : Config) (es E : List Entry) (P : List Memseg) :
    Prop where
  holds : config.Holds L es E
  packed : Packed L es P
  sorted : P.Pairwise PageLe
  cache : ∃ ms₀, CacheOf ms₀ config.memsegCache (pagePieces (L.backing file) P)
  byte : ∀ e ∈ es, ∀ k < e.mz.len.toNat, e.offset.toNat + k < sizeSum P ∧
    deviceByte config.memsegCache (e.offset.toNat + k) = L.backing file (e.mz.addr64 + UInt64.ofNat k)

private theorem Config.create_laid (name : CStr) :
    (Config.create name).Laid L file [] (List.replicate hostshmemMaxEntries {}) [] :=
  ⟨Config.create_holds L name, ⟨by simp, by simp, by simp, by simp, by simp, by simp⟩, List.Pairwise.nil,
    ⟨_, CacheOf.start (Config.create_holds L name).cache⟩, by simp⟩

private theorem Config.Laid.add {config' : Config} {es E : List Entry} {P : List Memseg} (h : config.Laid L file es E P)
    {env : Env} {mz : Memzone} (hE : GoodEnv L file env) (hZ : GoodZone L mz)
    (hadd : addMemzoneToMetadata env mz config = (config', none)) :
    ∃ es' E' P', config'.Laid L file es' E' P' := by
  obtain ⟨es', E', P', m, hc', -, -, hP, hsorted, hoff, hfour, -⟩ :=
    addMemzoneToMetadata_packed hE.1 h.holds hZ.1 hZ.2 hadd
  have hcache := (CacheOf.start h.holds.cache).fourthPass hP.used (by simpa using hP.sizeSum_lt) m hfour
  rw [List.nil_append, pagePieces_eq_backing hE hP.isPage] at hcache
  refine ⟨es', E', P', hc', hP, hsorted, ⟨_, hcache⟩, fun e he k hk => ⟨offset_add_lt hP hc'.zones he (hoff e he) hk, ?_⟩⟩
  obtain ⟨r, hr⟩ := Option.isSome_iff_exists.1 (Layout.backing_isSome file (hc'.zones.holds e he) hk)
  rw [deviceByte_of_packed hE.backs hP hc'.zones h.holds.cache hfour he (hoff e he) hk, hr]
  rfl

/-- Every config the library builds has its pages. -/
theorem built_laid (h : Built (GoodEnv L file) (GoodZone L) config) : ∃ es E P, config.Laid L file es E P := by
  induction h with
  | create name => exact ⟨_, _, _, Config.create_laid name⟩
  | add env mz hE hZ hadd _ ih =>
    obtain ⟨es, E, P, h⟩ := ih
    exact h.add hE hZ hadd

theorem Built.of_succeeds {A : Env → Prop} {Z : Memzone → Prop} (h : Built A Z config) {a : Add} (hE : A a.env)
    (hZ : Z a.mz) (hok : config.Succeeds a) : Built A Z (config.add a) :=
  Built.add a.env a.mz hE hZ (Prod.ext rfl hok) h

namespace Config.Laid

variable {es E : List Entry} {P : List Memseg}

theorem backing_isSome (h : config.Laid L file es E P) : ∀ p ∈ P, (L.backing file p.addr64).isSome := by
  intro p hp
  have hpos := (h.packed.isPage p hp).len_pos
  obtain ⟨s, hs, j, haddr, -, hlen, hj, -⟩ := h.packed.isPage p hp
  rw [Nat.add_mul, Nat.one_mul] at hj
  rw [Layout.backing_eq hs (by omega) (by omega)]
  rfl

private theorem piece_pos (h : config.Laid L file es E P) : ∀ s ∈ pagePieces (L.backing file) P, 0 < s.len := by
  intro s hs
  obtain ⟨p, hp, rfl⟩ := List.mem_map.1 hs
  obtain ⟨r, hr⟩ := Option.isSome_iff_exists.1 (h.backing_isSome p hp)
  rw [cacheEntry_of_some hr]
  exact (h.packed.isPage p hp).len_pos

/-- A byte of a zone is found among the printed segments. -/
theorem segments (h : config.Laid L file es E P) {e : Entry} (he : e ∈ es) {k : Nat} (hk : k < e.mz.len.toNat) :
    e.offset.toNat + k < total (config.segments.map CacheEntry.piece) ∧
      locate (config.segments.map CacheEntry.piece) (e.offset.toNat + k) =
        L.backing file (e.mz.addr64 + UInt64.ofNat k) := by
  obtain ⟨hlt, hbyte⟩ := h.byte e he k hk
  obtain ⟨ms₀, hcache⟩ := h.cache
  obtain ⟨⟨rest, hseg⟩, rest', hall⟩ := hcache.segments h.piece_pos
  rw [← total_pagePieces h.backing_isSome, ← total_coalesce] at hlt
  unfold deviceByte at hbyte
  rw [hall, locate_append_left _ hlt] at hbyte
  rw [hseg, locate_append_left _ hlt, total_append]
  exact ⟨by omega, hbyte⟩

end Config.Laid

end

end SoftPatchPanel.Hostshmem

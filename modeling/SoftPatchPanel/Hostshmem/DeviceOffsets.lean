import SoftPatchPanel.Hostshmem.Entries

/-!
# Device offsets

The entries of a config give the place of each zone on the device that the memseg cache describes.  Whatever zones of
a layout are added to a config, each byte of a zone is found on the device at the offset of its entry
(`deviceByte_eq_backing`).
-/

namespace SoftPatchPanel.Hostshmem

open Lib

/-- `backing` gives the file and offset behind an address, and `get_hugefile_by_virt_addr` returns it for a page. -/
def Backs (L : Layout) (backing : UInt64 → CStr × UInt64) (hugefile : UInt64 → Option (CStr × UInt64)) : Prop :=
  ∀ p, IsPage L p → ∀ r, hugefile p.addr64 = some r →
    ∀ d < p.size, backing (p.addr64 + UInt64.ofNat d) = (r.1, r.2 + UInt64.ofNat d)

/-- The bytes of a run of pages, laid end to end, are those of the addresses from its start on. -/
private theorem locate_runPages {L : Layout} {backing : UInt64 → CStr × UInt64}
    {hugefile : UInt64 → Option (CStr × UInt64)} (hb : Backs L backing hugefile) {hp start phys : UInt64} {n : Nat}
    (hpage : ∀ p ∈ runPages hp start phys n, IsPage L p)
    (hsome : ∀ p ∈ runPages hp start phys n, (hugefile p.addr64).isSome) {t : Nat} (ht : t < n * hp.toNat) :
    locate (pagePieces hugefile (runPages hp start phys n)) t = some (backing (start + UInt64.ofNat t)) := by
  induction n generalizing start phys t with
  | zero => omega
  | succ n ih =>
    rw [runPages, List.forall_mem_cons] at hpage hsome
    obtain ⟨r, hr⟩ := Option.isSome_iff_exists.1 hsome.1
    rw [runPages, pagePieces, List.map_cons, cacheEntry_of_some hr]
    by_cases hlt : t < hp.toNat
    · rw [locate_cons_of_lt _ hlt, hb _ hpage.1 r hr t hlt]
      rfl
    · have hsplit : hp.toNat + (t - hp.toNat) = t := by omega
      rw [locate_cons_of_not_lt _ hlt]
      refine (ih (t := t - hp.toNat) hpage.2 hsome.2 (by rw [Nat.add_mul] at ht; omega)).trans ?_
      have : start + hp + UInt64.ofNat (t - hp.toNat) = start + UInt64.ofNat t := by
        conv => rhs; rw [← hsplit, UInt64.ofNat_add, UInt64.ofNat_toNat, ← UInt64.add_assoc]
      rw [this]

theorem total_pagePieces {hugefile : UInt64 → Option (CStr × UInt64)} {P : List Memseg}
    (hsome : ∀ p ∈ P, (hugefile p.addr64).isSome) : total (pagePieces hugefile P) = sizeSum P := by
  induction P with
  | nil => rfl
  | cons p P ih =>
    rw [List.forall_mem_cons] at hsome
    obtain ⟨r, hr⟩ := Option.isSome_iff_exists.1 hsome.1
    rw [pagePieces, List.map_cons, total_cons, sizeSum_cons, cacheEntry_of_some hr]
    exact congrArg (p.size + ·) (ih hsome.2)

theorem deviceByte_of_packed {L : Layout} {backing : UInt64 → CStr × UInt64}
    {hugefile : UInt64 → Option (CStr × UInt64)} (hb : Backs L backing hugefile) {es : List Entry}
    {P : List Memseg} {m : Nat} {ms ms' : List CacheEntry} (hP : Packed L es P) (hzones : ZonesOk L es)
    (hlen : ms.length = hostshmemMaxPages) (hfour : fourthPass hugefile (P ++ freePages m) ms 0 = .ok ms')
    {e : Entry} (he : e ∈ es) (hoff : findOffset e.mz.addr64 (P ++ freePages m) 0 = some e.offset) {k : Nat}
    (hk : k < e.mz.len.toNat) :
    deviceByte ms' (e.offset.toNat + k) = some (backing (e.mz.addr64 + UInt64.ofNat k)) := by
  obtain ⟨s, j, n, hat⟩ := L.zoneAt (hzones.holds e he) (hzones.pos e he)
  obtain ⟨A, B, rfl⟩ := hP.infix_of_zone e he
  obtain ⟨off, hfind, hval⟩ := findOffset_eq hat hP.isPage hP.nodup hP.sizeSum_lt m
  rw [hfind] at hoff
  cases hoff
  obtain ⟨-, hsome, k', htotal, hsame⟩ :=
    fourthPass_sameBytes hP.used m hlen (Nat.zero_le _) (by simpa using hP.sizeSum_lt) hfour
  rw [List.take_zero, List.map_nil, List.nil_append] at htotal hsame
  have hsomeA : ∀ p ∈ A, (hugefile p.addr64).isSome := fun p hp => hsome p (by simp [hp])
  have hsomeZ : ∀ p ∈ e.mz.pages, (hugefile p.addr64).isSome := fun p hp => hsome p (by simp [hp])
  have hpieces : pagePieces hugefile (A ++ e.mz.pages ++ B) =
      pagePieces hugefile A ++ (pagePieces hugefile e.mz.pages ++ pagePieces hugefile B) := by
    simp [pagePieces]
  have hstart := hat.start_le
  have hend := hat.end_le
  -- the place of the byte among the bytes of the pages of its zone
  have hsizeZ : sizeSum e.mz.pages = n * e.mz.hugepageSz.toNat := by
    have hall : ∀ p ∈ e.mz.pages, p.size = e.mz.hugepageSz.toNat :=
      fun p hp => congrArg UInt64.toNat (len_of_mem_runPages hp)
    rw [sizeSum, List.map_congr_left hall, List.map_const', List.sum_replicate_nat, hat.length_pages]
  have ht : e.mz.addr64.toNat - e.mz.span.start.toNat + k < n * e.mz.hugepageSz.toNat := by
    rw [hat.hugepageSz]; omega
  have hlt : e.offset.toNat + k < total ((ms'.take k').map CacheEntry.piece) := by
    rw [htotal, total_pagePieces hsome, sizeSum_append, sizeSum_append, hsizeZ]
    omega
  unfold deviceByte
  rw [← List.take_append_drop k' ms', List.map_append, locate_append_left _ hlt, hsame, hpieces, hval, Nat.add_assoc,
    ← total_pagePieces hsomeA, locate_append_right,
    locate_append_left _ (by rw [total_pagePieces hsomeZ, hsizeZ]; exact ht), hat.pages_eq,
    locate_runPages hb (by rw [← hat.pages_eq]; exact fun p hp => (hat.isPage hp).1)
      (by rw [← hat.pages_eq]; exact hsomeZ) ht]
  have haddr : e.mz.span.start + UInt64.ofNat (e.mz.addr64.toNat - e.mz.span.start.toNat + k) =
      e.mz.addr64 + UInt64.ofNat k := by
    rw [UInt64.ofNat_add, ← UInt64.add_assoc]
    congr 1
    have hsub := UInt64.toNat_sub_of_le _ _ (UInt64.le_iff_toNat_le.2 hstart)
    rw [← hsub, UInt64.ofNat_toNat, UInt64.add_comm, UInt64.sub_add_cancel]
  rw [haddr]

private theorem built_invariant {L : Layout} {backing : UInt64 → CStr × UInt64} {config : Config}
    (h : Built (fun env => SortsEntries env.qsort ∧ Backs L backing env.hugefile)
      (fun mz => L.Holds mz ∧ 0 < mz.len.toNat) config) :
    ∃ es E, config.Holds L es E ∧ ∀ e ∈ es, ∀ k < e.mz.len.toNat,
      deviceByte config.memsegCache (e.offset.toNat + k) = some (backing (e.mz.addr64 + UInt64.ofNat k)) := by
  induction h with
  | create name => exact ⟨_, _, Config.create_holds L name, by simp⟩
  | add env mz hE hZ hadd _ ih =>
    obtain ⟨es, E, hc, -⟩ := ih
    obtain ⟨es', E', P, m, hc', -, -, hP, -, hoff, hfour, -⟩ :=
      addMemzoneToMetadata_packed hE.1 hc hZ.1 hZ.2 hadd
    exact ⟨es', E', hc', fun e he k hk =>
      deviceByte_of_packed hE.2 hP hc'.zones hc.cache hfour he (hoff e he) hk⟩

/-- After every successful call, byte `k` of an exported zone is the byte of the device at the offset of its entry
plus `k`. -/
theorem deviceByte_eq_backing (L : Layout) (backing : UInt64 → CStr × UInt64) {config : Config}
    (h : Built (fun env => SortsEntries env.qsort ∧ Backs L backing env.hugefile)
      (fun mz => L.Holds mz ∧ 0 < mz.len.toNat) config)
    {e : Entry} (he : e ∈ config.entry) (hne : e.mz.addr64 ≠ 0) {k : Nat} (hk : k < e.mz.len.toNat) :
    deviceByte config.memsegCache (e.offset.toNat + k) = some (backing (e.mz.addr64 + UInt64.ofNat k)) := by
  obtain ⟨es, E, hc, hbytes⟩ := built_invariant h
  rw [hc.entry] at he
  rcases List.mem_append.1 he with he | he
  · exact hbytes e he k hk
  · exact absurd (hc.free e he) hne

/-! ### A zone across two pages -/

/-- One memseg of two pages of 2 MB. -/
def twoPages : Layout where
  segs := [⟨0x7f0000000000, 0x100000000, 0x400000, 0x200000⟩]
  pow2 := by simpa using ⟨21, rfl⟩
  virt_aligned := by simp only [List.mem_singleton, forall_eq]; decide
  phys_aligned := by simp only [List.mem_singleton, forall_eq]; decide
  len_aligned := by simp only [List.mem_singleton, forall_eq]; decide
  virt_end := by simp
  phys_end := by simp
  virt_disjoint := List.pairwise_singleton _ _
  phys_disjoint := List.pairwise_singleton _ _

def rtemap0 : CStr := "/mnt/huge/rtemap_0".toList

def twoPagesBacking (v : UInt64) : CStr × UInt64 := (rtemap0, v - 0x7f0000000000)

def twoPagesEnv : Env := { qsort := sortEntries, hugefile := fun v => some (twoPagesBacking v), malloc := true }

/-- A zone of 8 kB, half of it on either page. -/
def acrossPages : Memzone :=
  { addr64 := 0x7f00001ff000, physAddr := 0x1001ff000, len := 0x2000, hugepageSz := 0x200000 }

theorem twoPages_holds : twoPages.Holds acrossPages :=
  ⟨_, List.mem_singleton_self _, by decide, by decide, by decide, by decide⟩

private theorem add_sub_comm_right (a b c : UInt64) : a + c - b = a - b + c := by
  rw [UInt64.sub_eq_add_neg, UInt64.sub_eq_add_neg, UInt64.add_assoc, UInt64.add_comm c, UInt64.add_assoc]

private theorem twoPages_backs : Backs twoPages twoPagesBacking twoPagesEnv.hugefile := by
  intro p _ r hr d _
  obtain rfl : twoPagesBacking p.addr64 = r := Option.some.inj hr
  exact Prod.ext rfl (add_sub_comm_right _ _ _)

theorem deviceByte_acrossPages :
    ∃ config : Config, (∃ e ∈ config.entry, e.mz = acrossPages) ∧ ∀ e ∈ config.entry, e.mz = acrossPages →
      deviceByte config.memsegCache (e.offset.toNat + 0x1fff) = some (rtemap0, 0x200fff) := by
  have hok : (addMemzoneToMetadata twoPagesEnv acrossPages (Config.create [])).2 = none := by decide +kernel
  have hmem : ∃ e ∈ (addMemzoneToMetadata twoPagesEnv acrossPages (Config.create [])).1.entry,
      e.mz = acrossPages := by decide +kernel
  generalize hadd : addMemzoneToMetadata twoPagesEnv acrossPages (Config.create []) = result at hok hmem
  obtain ⟨config, failure⟩ := result
  cases hok
  have hbuilt := Built.add (E := fun env => SortsEntries env.qsort ∧ Backs twoPages twoPagesBacking env.hugefile)
    (Z := fun mz => twoPages.Holds mz ∧ 0 < mz.len.toNat) twoPagesEnv acrossPages
    ⟨sortEntries_sorts, twoPages_backs⟩ ⟨twoPages_holds, by decide⟩ hadd (Built.create [])
  refine ⟨config, hmem, fun e he hmz => ?_⟩
  rw [deviceByte_eq_backing twoPages twoPagesBacking hbuilt he (by rw [hmz]; decide) (by rw [hmz]; decide +kernel),
    hmz]
  decide

end SoftPatchPanel.Hostshmem

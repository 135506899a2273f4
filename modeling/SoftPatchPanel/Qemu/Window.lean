import SoftPatchPanel.Qemu.Requests
import SoftPatchPanel.Hostshmem.Exported
import SoftPatchPanel.Lib.Aligned

/-!
# The window onto the exported zones

`create_shared_memory_BAR` maps the files of the command line one behind the other into the window of the device.  The
kernel maps a file only at multiples of its page size, so the start of the window is moved to a multiple of 1 GB, and
the library has put the big hugepages in front of the small ones.

From the calls of the library over the options `size` and `shm` of the command line and back to the mappings of QEMU,
each byte of each exported zone is in the window at the offset of its entry, and the metadata are at the end of the
window (`window_shows`).
-/

namespace SoftPatchPanel.Qemu

open Lib
open Hostshmem

/-! ### The BAR -/

/-- `ONE_GB`. -/
def oneGb : UInt64 := (1 : UInt64) <<< 30

/-- What QEMU gets from the kernel. -/
structure Kernel where
  /-- `/dev/zero` can be opened. -/
  devZero : Bool
  /-- Where a mapping of some length goes when no address is asked for; `none` for `MAP_FAILED`. -/
  area : UInt64 → Option UInt64
  /-- Where a file goes for which an address is asked with `MAP_FIXED`. -/
  fixed : UInt64 → IVShmemFile → Option UInt64

/-- The reasons for which `create_shared_memory_BAR` returns -1. -/
inductive BarFailure where
  | openDevZero
  | mmapDevZero
  | mmapFile
deriving DecidableEq

/-- The shared memory region of the device, with the mappings of the process. -/
structure Bar where
  size : UInt64
  virtArea : UInt64
  maps : List Mapping

/-- What the guest finds at a place of the region. -/
def Bar.byte (bar : Bar) (o : Nat) : Option (Option CStr × UInt64) :=
  if o < bar.size.toNat then shows bar.maps (bar.virtArea + UInt64.ofNat o) else none

/-- The loop over the files.  A mapping with `MAP_FIXED` replaces what was there, so it comes in front of the others. -/
def mapFiles (kernel : Kernel) (virtArea : UInt64) :
    List IVShmemFile → UInt64 → List Mapping → Except BarFailure (List Mapping)
  | [], _, maps => .ok maps
  | file :: files, totalSize, maps =>
    match kernel.fixed (virtArea + totalSize) file with
    | none => .error .mmapFile
    | some ptrData =>
      if ptrData ≠ virtArea + totalSize then .error .mmapFile
      else
        mapFiles kernel virtArea files (totalSize + file.size) (⟨ptrData, file.size, some file.fd, file.offset⟩ :: maps)

/-- `create_shared_memory_BAR`.  The area of `/dev/zero` is unmapped again before the files are mapped. -/
def createSharedMemoryBAR (kernel : Kernel) (ivshmemSize : UInt64) (files : List IVShmemFile) (maps : List Mapping) :
    Except BarFailure Bar :=
  if kernel.devZero = false then .error .openDevZero
  else
    match kernel.area (ivshmemSize + oneGb) with
    | none => .error .mmapDevZero
    | some virtArea =>
      let oneGbAlign := oneGb - virtArea % oneGb
      let virtArea := virtArea + oneGbAlign
      match mapFiles kernel virtArea files 0 maps with
      | .error failure => .error failure
      | .ok maps => .ok ⟨ivshmemSize, virtArea, maps⟩

/-- The reasons for QEMU to exit in `pci_ivshmem_init`. -/
inductive InitFailure where
  | parameters (failure : IvshmemFailure)
  | bar (failure : BarFailure)
deriving DecidableEq

/-- `pci_ivshmem_init` for a value of `shm` that starts with `FD_PREFIX`, to its end. -/
def pciIvshmemBar (kernel : Kernel) (fileSize : CStr → Option UInt64) (sizearg : Option CStr) (shmobj : CStr)
    (maps : List Mapping) : Except InitFailure Bar :=
  match pciIvshmemInit fileSize sizearg shmobj with
  | .error failure => .error (.parameters failure)
  | .ok (ivshmemSize, files) =>
    match createSharedMemoryBAR kernel ivshmemSize files maps with
    | .error failure => .error (.bar failure)
    | .ok bar => .ok bar

private theorem pciIvshmemBar_eq {kernel : Kernel} {fileSize : CStr → Option UInt64} {sizearg shmobj : CStr}
    {ivshmemSize : UInt64} {files : List IVShmemFile} {maps : List Mapping} {bar : Bar}
    (hsize : ivshmemGetSize sizearg = .ok ivshmemSize) (hfiles : fdFiles fileSize shmobj = .ok files)
    (hbar : createSharedMemoryBAR kernel ivshmemSize files maps = .ok bar) :
    pciIvshmemBar kernel fileSize (some sizearg) shmobj maps = .ok bar := by
  simp only [pciIvshmemBar, pciIvshmemInit, Qemu.ivshmemSize, hsize, hfiles, hbar]

/-! ### What the loop maps -/

/-- The piece of its file that is mapped. -/
def IVShmemFile.piece (file : IVShmemFile) : Piece CStr := ⟨file.fd, file.offset, file.size.toNat⟩

/-- The kernel maps a file at multiples of its page size. -/
def Kernel.Grants (kernel : Kernel) (pageSize : CStr → Nat) : Prop :=
  ∀ (addr : UInt64) (file : IVShmemFile), file.size ≠ 0 → pageSize file.fd ∣ addr.toNat →
    pageSize file.fd ∣ file.offset.toNat → pageSize file.fd ∣ file.size.toNat → kernel.fixed addr file = some addr

private theorem toNat_add_ofNat {a : UInt64} {n : Nat} (h : a.toNat + n < 2 ^ 64) :
    (a + UInt64.ofNat n).toNat = a.toNat + n := by
  rw [UInt64.toNat_add, UInt64.toNat_ofNat', Nat.mod_eq_of_lt (a := n) (b := 2 ^ 64) (by omega), Nat.mod_eq_of_lt h]

private theorem shows_cons_of_has {m : Mapping} {v : UInt64} (maps : List Mapping) (h : m.Has v) :
    shows (m :: maps) v = some (m.file, m.offset + (v - m.addr)) := by
  simp [shows, h]

private theorem shows_cons_of_not_has {m : Mapping} {v : UInt64} (maps : List Mapping) (h : ¬m.Has v) :
    shows (m :: maps) v = shows maps v := by
  simp [shows, h]

/-- Files that are aligned get mapped, and the range shows them end to end; everything else is as before. -/
private theorem mapFiles_spec {kernel : Kernel} {pageSize : CStr → Nat} (hgrants : kernel.Grants pageSize)
    (virtArea : UInt64)
    (files : List IVShmemFile) (totalSize : UInt64) (maps : List Mapping)
    (hfits : virtArea.toNat + totalSize.toNat + total (files.map IVShmemFile.piece) < 2 ^ 64)
    (haligned : AlignedFrom pageSize (virtArea.toNat + totalSize.toNat) (files.map IVShmemFile.piece))
    (hpos : ∀ file ∈ files, file.size ≠ 0) :
    ∃ maps', mapFiles kernel virtArea files totalSize maps = .ok maps' ∧
      (∀ o < total (files.map IVShmemFile.piece), shows maps' (virtArea + totalSize + UInt64.ofNat o) =
        (locate (files.map IVShmemFile.piece) o).map (fun r => (some r.1, r.2))) ∧
      ∀ v : UInt64, v.toNat < virtArea.toNat + totalSize.toNat → shows maps' v = shows maps v := by
  induction files generalizing totalSize maps with
  | nil => exact ⟨maps, rfl, by simp, fun _ _ => rfl⟩
  | cons file files ih =>
    rw [List.map_cons, total_cons] at hfits
    rw [List.map_cons, alignedFrom_cons] at haligned
    rw [List.forall_mem_cons] at hpos
    have hlen : file.piece.len = file.size.toNat := rfl
    have haddr : (virtArea + totalSize).toNat = virtArea.toNat + totalSize.toNat := by
      rw [UInt64.toNat_add, Nat.mod_eq_of_lt (by omega)]
    have hnext : (totalSize + file.size).toNat = totalSize.toNat + file.size.toNat := by
      rw [UInt64.toNat_add, Nat.mod_eq_of_lt (by omega)]
    have hfixed : kernel.fixed (virtArea + totalSize) file = some (virtArea + totalSize) :=
      hgrants _ _ hpos.1 (by rw [haddr]; exact haligned.1.1) haligned.1.2.1 haligned.1.2.2
    obtain ⟨maps', hmap, hshows, hbefore⟩ := ih (totalSize + file.size)
      (⟨virtArea + totalSize, file.size, some file.fd, file.offset⟩ :: maps) (by rw [hnext]; omega)
      (by rw [hnext, ← Nat.add_assoc]; exact haligned.2) hpos.2
    rw [hnext] at hbefore
    refine ⟨maps', ?_, fun o ho => ?_, fun v hv => ?_⟩
    · rw [mapFiles, hfixed]
      simp only
      rw [if_neg (fun h => h rfl), hmap]
    · rw [List.map_cons, total_cons] at ho
      by_cases hlt : o < file.size.toNat
      · -- a byte of this file, which later mappings leave alone
        have hv : (virtArea + totalSize + UInt64.ofNat o).toNat = virtArea.toNat + totalSize.toNat + o := by
          rw [toNat_add_ofNat (by omega), haddr]
        rw [hbefore _ (by omega), shows_cons_of_has _ (by unfold Mapping.Has; simp only; omega), List.map_cons,
          locate_cons_of_lt _ hlt]
        simp only [Option.map_some]
        congr 3
        rw [UInt64.add_comm, UInt64.add_sub_cancel]
      · have hsplit : virtArea + totalSize + UInt64.ofNat o =
            virtArea + (totalSize + file.size) + UInt64.ofNat (o - file.size.toNat) := by
          have ho' : UInt64.ofNat o = file.size + UInt64.ofNat (o - file.size.toNat) := by
            conv => lhs; rw [← Nat.add_sub_of_le (Nat.not_lt.1 hlt), UInt64.ofNat_add, UInt64.ofNat_toNat]
          rw [ho', ← UInt64.add_assoc, UInt64.add_assoc virtArea]
        rw [hsplit, hshows _ (by omega), List.map_cons, locate_cons_of_not_lt _ hlt]
        rfl
    · rw [hbefore v (by omega), shows_cons_of_not_has _ (by unfold Mapping.Has; simp only; omega)]

/-- The window starts at a multiple of 1 GB inside the area that the kernel gave. -/
private theorem virtArea_aligned (virtArea : UInt64) (h : virtArea.toNat + 2 ^ 30 < 2 ^ 64) :
    2 ^ 30 ∣ (virtArea + (oneGb - virtArea % oneGb)).toNat ∧
      virtArea.toNat < (virtArea + (oneGb - virtArea % oneGb)).toNat ∧
      (virtArea + (oneGb - virtArea % oneGb)).toNat ≤ virtArea.toNat + 2 ^ 30 := by
  have hgb : oneGb.toNat = 2 ^ 30 := by decide
  have hmod : (virtArea % oneGb).toNat = virtArea.toNat % 2 ^ 30 := by rw [UInt64.toNat_mod, hgb]
  have hlt := Nat.mod_lt virtArea.toNat (show 0 < 2 ^ 30 by decide)
  have hsub : (oneGb - virtArea % oneGb).toNat = 2 ^ 30 - virtArea.toNat % 2 ^ 30 := by
    rw [UInt64.toNat_sub_of_le _ _ (by rw [UInt64.le_iff_toNat_le, hmod, hgb]; omega), hgb, hmod]
  have hadd : (virtArea + (oneGb - virtArea % oneGb)).toNat =
      virtArea.toNat + (2 ^ 30 - virtArea.toNat % 2 ^ 30) := by
    rw [UInt64.toNat_add, hsub, Nat.mod_eq_of_lt (by omega)]
  rw [hadd]
  refine ⟨?_, by omega, by omega⟩
  omega

/-- The kernel has room for the area, and maps files at multiples of their page sizes. -/
structure Kernel.Serves (kernel : Kernel) (pageSize : CStr → Nat) (size : UInt64) : Prop where
  devZero : kernel.devZero
  area : ∃ virtArea, kernel.area (size + oneGb) = some virtArea ∧ virtArea.toNat + size.toNat + 2 ^ 30 < 2 ^ 64
  grants : kernel.Grants pageSize

/-- The device shows aligned files end to end. -/
private theorem createSharedMemoryBAR_spec {kernel : Kernel} {pageSize : CStr → Nat} {size : UInt64}
    (hserves : kernel.Serves pageSize size) (files : List IVShmemFile) (maps : List Mapping)
    (hfits : total (files.map IVShmemFile.piece) = size.toNat)
    (haligned : AlignedFrom pageSize 0 (files.map IVShmemFile.piece))
    (hgb : ∀ file ∈ files, pageSize file.fd ∣ 2 ^ 30) (hpos : ∀ file ∈ files, file.size ≠ 0) :
    ∃ bar, createSharedMemoryBAR kernel size files maps = .ok bar ∧ bar.size = size ∧
      ∀ o < size.toNat, bar.byte o = (locate (files.map IVShmemFile.piece) o).map (fun r => (some r.1, r.2)) := by
  obtain ⟨virtArea, harea, hroom⟩ := hserves.area
  obtain ⟨hdvd, -, hle⟩ := virtArea_aligned virtArea (by omega)
  obtain ⟨maps', hmap, hshows, -⟩ := mapFiles_spec hserves.grants
    (virtArea + (oneGb - virtArea % oneGb)) files 0 maps (by rw [hfits]; simp only [UInt64.toNat_zero]; omega)
    (haligned.shift (fun s hs => by
      obtain ⟨file, hfile, rfl⟩ := List.mem_map.1 hs
      exact (hgb file hfile).trans hdvd)) hpos
  refine ⟨⟨size, virtArea + (oneGb - virtArea % oneGb), maps'⟩, ?_, rfl, fun o ho => ?_⟩
  · unfold createSharedMemoryBAR
    rw [if_neg (by simp [hserves.devZero]), harea]
    simp only
    rw [hmap]
  · rw [Bar.byte, if_pos ho]
    simp only
    rw [← hshows o (by omega), UInt64.add_zero]

/-! ### The files of the library -/

/-- What the library exports and what QEMU maps have pages of these sizes: the hugepages have 2 MB to 1 GB, everything
else has the pages of the system. -/
structure PageSizes (L : Layout) (file : Seg → CStr) (pagesz : UInt64) (name : CStr) (pageSize : CStr → Nat) : Prop where
  pow2 : IsPow2 pagesz
  le : pagesz.toNat ≤ 2 ^ 20
  huge : ∀ s ∈ L.segs, 2 ^ 21 ≤ s.hugepageSz ∧ s.hugepageSz ≤ 2 ^ 30
  seg : ∀ s ∈ L.segs, pageSize (file s) = s.hugepageSz
  zero : pageSize "/dev/zero".toList = pagesz.toNat
  metadata : pageSize (configFileFmt name) = pagesz.toNat

private theorem two_pow_dvd_of_le {a b : Nat} (ha : ∃ k, a = 2 ^ k) (hb : ∃ k, b = 2 ^ k) (h : a ≤ b) : a ∣ b := by
  obtain ⟨i, rfl⟩ := ha
  obtain ⟨j, rfl⟩ := hb
  exact Nat.pow_dvd_pow 2 ((Nat.pow_le_pow_iff_right (by decide)).1 h)

section

variable {L : Layout} {file : Seg → CStr} {pagesz : UInt64} {pageSize : CStr → Nat} {config : Config}
  {es E : List Entry} {P : List Memseg}

private theorem size_pow2 {p : Memseg} (hp : IsPage L p) : ∃ k, p.size = 2 ^ k := by
  obtain ⟨s, hs, j, -, -, hlen, -⟩ := hp
  obtain ⟨k, hk⟩ := L.pow2 s hs
  exact ⟨k, hlen.trans hk⟩

/-- The big pages come first, so each page lies at a multiple of its size. -/
private theorem alignedFrom_pages (hsizes : PageSizes L file pagesz config.name pageSize) (hP : ∀ p ∈ P, IsPage L p)
    (hsorted : P.Pairwise PageLe) {o : Nat} (ho : ∀ p ∈ P, p.size ∣ o) :
    AlignedFrom pageSize o (pagePieces (L.backing file) P) := by
  induction P generalizing o with
  | nil => trivial
  | cons p P ih =>
    rw [List.forall_mem_cons] at hP ho
    rw [List.pairwise_cons] at hsorted
    have hpos := hP.1.len_pos
    have hpow := size_pow2 hP.1
    obtain ⟨s, hs, j, haddr, -, hlen, hj, -⟩ := hP.1
    have hbacking : L.backing file p.addr64 = some (file s, p.addr64 - UInt64.ofNat s.virt) :=
      Layout.backing_eq hs (by omega) (by rw [Nat.add_mul, Nat.one_mul] at hj; omega)
    have hoff : (p.addr64 - UInt64.ofNat s.virt).toNat = j * s.hugepageSz := by
      have hvirt := Seg.toNat_virt hs
      rw [UInt64.toNat_sub_of_le _ _ (by rw [UInt64.le_iff_toNat_le]; omega)]
      omega
    have hsize : p.size = s.hugepageSz := hlen
    rw [pagePieces, List.map_cons, cacheEntry_of_some hbacking]
    refine ⟨⟨?_, ?_, ?_⟩, ih hP.2 hsorted.2 fun q hq => ?_⟩
    · simp only [CacheEntry.piece]
      rw [hsizes.seg s hs, ← hsize]
      exact ho.1
    · simp only [CacheEntry.piece]
      rw [hsizes.seg s hs, hoff]
      exact Nat.dvd_mul_left _ _
    · simp only [CacheEntry.piece]
      rw [hsizes.seg s hs, hlen]
    · -- a later page is not bigger, and both sizes are powers of two
      have hle : q.size ≤ p.size := by
        rcases hsorted.1 q hq with h | ⟨h, -⟩ <;> omega
      exact Nat.dvd_add (ho.2 q hq) (two_pow_dvd_of_le (size_pow2 (hP.2 q hq)) hpow hle)

/-- The segments that are printed are the runs of the pages. -/
private theorem segments_eq_runs (h : config.Laid L file es E P) (hexact : config.CacheExact L file) :
    config.segments.map CacheEntry.piece = coalesce (pagePieces (L.backing file) P) := by
  have hruns := hexact.runs
  rw [Config.pieces, pageList_eq h.holds h.packed h.sorted] at hruns
  exact hruns

/-- Each printed segment belongs to the file of a memseg and has at least one page. -/
private theorem segment_of_seg (hsizes : PageSizes L file pagesz config.name pageSize) (h : config.Laid L file es E P)
    (hexact : config.CacheExact L file) {c : CacheEntry} (hc : c ∈ config.segments) :
    (∃ s ∈ L.segs, c.filepath = file s) ∧ 2 ^ 21 ≤ c.len.toNat := by
  have hmem : c.piece ∈ coalesce (pagePieces (L.backing file) P) := by
    rw [← segments_eq_runs h hexact]
    exact List.mem_map_of_mem hc
  obtain ⟨x, hx, hfile, hlen⟩ := exists_of_mem_coalesce hmem
  obtain ⟨p, hp, rfl⟩ := List.mem_map.1 hx
  have hpos := (h.packed.isPage p hp).len_pos
  obtain ⟨s, hs, j, haddr, -, hplen, hj, -⟩ := h.packed.isPage p hp
  have hbacking : L.backing file p.addr64 = some (file s, p.addr64 - UInt64.ofNat s.virt) :=
    Layout.backing_eq hs (by omega) (by rw [Nat.add_mul, Nat.one_mul] at hj; omega)
  rw [cacheEntry_of_some hbacking] at hfile hlen
  refine ⟨⟨s, hs, hfile⟩, ?_⟩
  have := (hsizes.huge s hs).1
  simp only [CacheEntry.piece] at hlen
  omega

private theorem total_eq_sum_len (cs : List CacheEntry) :
    total (cs.map CacheEntry.piece) = (cs.map (fun c => c.len.toNat)).sum := by
  rw [total, List.map_map]
  rfl

private theorem two_pow_dvd_sizeSum (hsizes : PageSizes L file pagesz config.name pageSize) (hP : ∀ p ∈ P, IsPage L p) :
    2 ^ 21 ∣ sizeSum P := by
  induction P with
  | nil => exact Nat.dvd_zero _
  | cons p P ih =>
    rw [List.forall_mem_cons] at hP
    rw [sizeSum_cons]
    refine Nat.dvd_add (two_pow_dvd_of_le ⟨21, rfl⟩ (size_pow2 hP.1) ?_) (ih hP.2)
    obtain ⟨s, hs, j, -, -, hlen, -⟩ := hP.1
    rw [Memseg.size, hlen]
    exact (hsizes.huge s hs).1

private theorem sizeSum_pos (hP : ∀ p ∈ P, IsPage L p) (hne : P ≠ []) : 0 < sizeSum P := by
  cases P with
  | nil => exact absurd rfl hne
  | cons p P =>
    have := (hP p (by simp)).len_pos
    rw [sizeSum_cons, Memseg.size]
    omega

private theorem metadataSizeAligned_multiple (hpage : IsPow2 pagesz) (hpage' : pagesz.toNat ≤ 2 ^ 20) :
    pagesz.toNat ∣ (metadataSizeAligned pagesz).toNat ∧ 0 < (metadataSizeAligned pagesz).toNat := by
  have hpos := hpage.pos
  have hsize : metadataSize.toNat = 12328 := by decide
  rw [metadataSizeAligned, toNat_alignCeil hpage (by rw [hsize]; omega), hsize]
  exact ⟨Nat.dvd_mul_left _ _, Nat.mul_pos (Nat.div_pos (by omega) hpos) hpos⟩

/-- Between hugepages and metadata there is something left of a power of two, in whole pages. -/
private theorem zeros_multiple {shared zeros metadata page k : Nat} (hfill : shared + (zeros + metadata) = 2 ^ k)
    (hshared : 2 ^ 21 ∣ shared) (hpos : 0 < shared) (hmeta : page ∣ metadata) (hmeta0 : 0 < metadata)
    (hle : metadata ≤ 2 ^ 20) (hpage : page ∣ 2 ^ 21) : page ∣ zeros ∧ zeros ≠ 0 := by
  have hk : 21 ≤ k := by
    by_contra hlt
    have h1 := Nat.le_of_dvd hpos hshared
    have h2 := Nat.pow_le_pow_right (show 0 < 2 by decide) (show k ≤ 20 by omega)
    omega
  have hdvd : 2 ^ 21 ∣ 2 ^ k := Nat.pow_dvd_pow 2 hk
  have hrest : 2 ^ 21 ∣ zeros + metadata := (Nat.dvd_add_iff_right hshared).2 (by rw [hfill]; exact hdvd)
  refine ⟨(Nat.dvd_add_iff_left hmeta).2 (hpage.trans hrest), ?_⟩
  rintro rfl
  have := Nat.le_of_dvd (by omega) hrest
  omega

/-- The files that are printed fill the device, and each can be mapped at its place. -/
structure Mappable (pageSize : CStr → Nat) (size : UInt64) (files : List CacheEntry) : Prop where
  total : total (files.map CacheEntry.piece) = size.toNat
  aligned : AlignedFrom pageSize 0 (files.map CacheEntry.piece)
  gb : ∀ c ∈ files, pageSize c.filepath ∣ 2 ^ 30
  pos : ∀ c ∈ files, c.len ≠ 0

/-- The segments have the bytes of the pages, and there is one when there is a page. -/
private theorem total_segments (h : config.Laid L file es E P) (hexact : config.CacheExact L file) :
    total (config.segments.map CacheEntry.piece) = sizeSum P := by
  rw [segments_eq_runs h hexact, total_coalesce, total_pagePieces h.backing_isSome]

private theorem exists_segment (h : config.Laid L file es E P) (hexact : config.CacheExact L file) (hne : P ≠ []) :
    ∃ c, c ∈ config.segments := by
  have hpos := sizeSum_pos h.packed.isPage hne
  rw [← total_segments h hexact] at hpos
  refine List.exists_mem_of_ne_nil _ fun hnil => ?_
  simp [hnil] at hpos

private theorem deviceFiles_mappable (hsizes : PageSizes L file pagesz config.name pageSize)
    (h : config.Laid L file es E P)
    (hexact : config.CacheExact L file) (hne : P ≠ []) (htotal : sizeSum P < 2 ^ 63 - 2 ^ 20) :
    Mappable pageSize (config.totalSize pagesz) (config.deviceFiles pagesz) ∧
      ∃ k, (config.totalSize pagesz).toNat = 2 ^ k ∧ 20 ≤ k := by
  have hsum := total_segments h hexact
  obtain ⟨c, hc⟩ := exists_segment h hexact hne
  obtain ⟨k, hk, hk20, hfill⟩ := totalSize_eq hsizes.pow2 hsizes.le ⟨c, hc, (segment_of_seg hsizes h hexact hc).2⟩
    (by rw [← total_eq_sum_len, hsum]; exact htotal)
  rw [← total_eq_sum_len] at hfill
  refine ⟨?_, k, hk, hk20⟩
  obtain ⟨zeros, hzeros⟩ :
      ∃ zeros, config.totalSize pagesz - config.sharedMemSize - metadataSizeAligned pagesz = zeros := ⟨_, rfl⟩
  have hparts : sizeSum P + (zeros.toNat + (metadataSizeAligned pagesz).toNat) = 2 ^ k := by
    rw [Config.deviceFiles, hzeros, List.map_append, total_append, hsum, hk] at hfill
    simpa [CacheEntry.piece] using hfill
  obtain ⟨hmeta, hmeta0⟩ := metadataSizeAligned_multiple hsizes.pow2 hsizes.le
  have hpage : pagesz.toNat ∣ 2 ^ 21 := two_pow_dvd_of_le hsizes.pow2 ⟨21, rfl⟩ (by have := hsizes.le; omega)
  have hshared : 2 ^ 21 ∣ sizeSum P := two_pow_dvd_sizeSum hsizes h.packed.isPage
  obtain ⟨hdvd, hne0⟩ := zeros_multiple hparts hshared (sizeSum_pos h.packed.isPage hne) hmeta hmeta0
    (metadataSizeAligned_le hsizes.pow2 hsizes.le) hpage
  have hforall : ∀ {Q : CacheEntry → Prop}, (∀ c ∈ config.segments, Q c) → Q ⟨"/dev/zero".toList, 0, zeros⟩ →
      Q ⟨configFileFmt config.name, 0, metadataSizeAligned pagesz⟩ → ∀ c ∈ config.deviceFiles pagesz, Q c := by
    intro Q h1 h2 h3 c hc
    rw [Config.deviceFiles, hzeros] at hc
    simp only [List.mem_append, List.mem_cons, List.not_mem_nil, or_false] at hc
    rcases hc with hc | rfl | rfl
    · exact h1 c hc
    · exact h2
    · exact h3
  have hgb : pagesz.toNat ∣ 2 ^ 30 := hpage.trans (Nat.pow_dvd_pow 2 (by decide))
  refine ⟨hfill, ?_, hforall (fun c hc => ?_) ?_ ?_, hforall (fun c hc h0 => ?_) (fun h0 => hne0 ?_) (fun h0 => ?_)⟩
  · rw [Config.deviceFiles, hzeros, List.map_append, alignedFrom_append, Nat.zero_add, hsum, segments_eq_runs h hexact]
    refine ⟨(alignedFrom_pages hsizes h.packed.isPage h.sorted (fun _ _ => Nat.dvd_zero _)).coalesce, ?_⟩
    simp only [List.map_cons, List.map_nil, alignedFrom_cons, alignedFrom_nil, CacheEntry.piece, hsizes.zero,
      hsizes.metadata, UInt64.toNat_zero, Nat.dvd_zero, true_and, and_true]
    exact ⟨⟨hpage.trans hshared, hdvd⟩, Nat.dvd_add (hpage.trans hshared) hdvd, hmeta⟩
  · obtain ⟨⟨s, hs, hfile⟩, -⟩ := segment_of_seg hsizes h hexact hc
    rw [hfile, hsizes.seg s hs]
    exact two_pow_dvd_of_le (L.pow2 s hs) ⟨30, rfl⟩ (hsizes.huge s hs).2
  · simp only
    rw [hsizes.zero]
    exact hgb
  · simp only
    rw [hsizes.metadata]
    exact hgb
  · have := (segment_of_seg hsizes h hexact hc).2
    simp [h0] at this
  · simpa using congrArg UInt64.toNat h0
  · simp only at h0
    simp [h0] at hmeta0

/-- The device over mappable files shows them end to end. -/
private theorem createSharedMemoryBAR_of_mappable {kernel : Kernel} {size : UInt64}
    (hserves : kernel.Serves pageSize size)
    {files : List CacheEntry} (h : Mappable pageSize size files) (maps : List Mapping) :
    ∃ bar, createSharedMemoryBAR kernel size (files.map ivshmemFile) maps = .ok bar ∧ bar.size = size ∧
      ∀ o < size.toNat, bar.byte o = (locate (files.map CacheEntry.piece) o).map (fun r => (some r.1, r.2)) := by
  have hpieces : (files.map ivshmemFile).map IVShmemFile.piece = files.map CacheEntry.piece := by
    rw [List.map_map]
    rfl
  obtain ⟨bar, hbar, hsize, hbyte⟩ := createSharedMemoryBAR_spec hserves (files.map ivshmemFile) maps
    (by rw [hpieces]; exact h.total) (by rw [hpieces]; exact h.aligned)
    (by simpa [ivshmemFile] using h.gb) (by simpa [ivshmemFile] using h.pos)
  rw [hpieces] at hbyte
  exact ⟨bar, hbar, hsize, hbyte⟩

/-- The metadata are the last file. -/
private theorem locate_metadata {size : Nat} (hfill : total ((config.deviceFiles pagesz).map CacheEntry.piece) = size)
    {j : Nat}
    (hj : j < (metadataSizeAligned pagesz).toNat) :
    locate ((config.deviceFiles pagesz).map CacheEntry.piece) (size - (metadataSizeAligned pagesz).toNat + j) =
      some (configFileFmt config.name, UInt64.ofNat j) := by
  obtain ⟨front, hfront⟩ : ∃ front, config.deviceFiles pagesz =
      front ++ [⟨configFileFmt config.name, 0, metadataSizeAligned pagesz⟩] := by
    refine ⟨config.segments ++ [⟨"/dev/zero".toList, 0,
      config.totalSize pagesz - config.sharedMemSize - metadataSizeAligned pagesz⟩], ?_⟩
    rw [Config.deviceFiles, List.append_assoc]
    rfl
  rw [hfront, List.map_append, total_append] at hfill
  have hlast : total ([CacheEntry.mk (configFileFmt config.name) 0 (metadataSizeAligned pagesz)].map CacheEntry.piece) =
      (metadataSizeAligned pagesz).toNat := by simp [CacheEntry.piece]
  rw [hlast] at hfill
  have hplace : size - (metadataSizeAligned pagesz).toNat + j = total (front.map CacheEntry.piece) + j := by omega
  rw [hfront, List.map_append, hplace, locate_append_right, List.map_cons, locate_cons_of_lt _ hj]
  simp [CacheEntry.piece]

end

/-- The config that a process has under a name, with a text that fits into the buffers. -/
structure Printable (pagesz : UInt64) (p : Process) (name : CStr) (config : Config) (size : Nat) : Prop where
  found : ∃ slot, getConfigByName name p.configs = some slot ∧ p.configs[slot]? = some config
  name : Plain config.name
  entries : config.segments.length ≤ hostshmemMaxEntries
  cmdline : (config.fullCmdline pagesz).length < qemuCmdlineBufsize
  text : (config.fullText pagesz).length < size

def rtemap1 : CStr := "/mnt/huge1g/rtemap_1".toList

/-- A memseg of two pages of 2 MB and one of a page of 1 GB at higher addresses. -/
def twoSizes : Layout where
  segs := [⟨0x7f0000000000, 0x40000000, 0x400000, 0x200000⟩, ⟨0x7f8000000000, 0x140000000, 0x40000000, 0x40000000⟩]
  pow2 := by simpa using ⟨⟨21, rfl⟩, ⟨30, rfl⟩⟩
  virt_aligned := by simp only [List.forall_mem_cons, List.not_mem_nil, IsEmpty.forall_iff, implies_true]; decide
  phys_aligned := by simp only [List.forall_mem_cons, List.not_mem_nil, IsEmpty.forall_iff, implies_true]; decide
  len_aligned := by simp only [List.forall_mem_cons, List.not_mem_nil, IsEmpty.forall_iff, implies_true]; decide
  virt_end := by simp
  phys_end := by simp
  virt_disjoint := by simp [Seg.VirtDisjoint]
  phys_disjoint := by simp [Seg.PhysDisjoint]

def twoSizesFile (s : Seg) : CStr := if s.hugepageSz = 0x200000 then rtemap0 else rtemap1

def twoSizesLines : List MapsLine :=
  [⟨0x7f0000000000, 0x7f0000400000, some rtemap0⟩, ⟨0x7f8000000000, 0x7f8040000000, some rtemap1⟩]

private theorem twoSizes_showsMaps : ShowsMaps twoSizes twoSizesFile twoSizesLines := by
  constructor
  · simp only [twoSizes, List.forall_mem_cons, List.not_mem_nil, IsEmpty.forall_iff, implies_true]
    decide +kernel
  · simp only [twoSizes, twoSizesLines, List.forall_mem_cons, List.not_mem_nil, IsEmpty.forall_iff, implies_true]
    decide +kernel

def twoSizesEnv : Env :=
  { qsort := sortEntries, hugefile := fun v => getHugefileByVirtAddr v twoSizesLines, malloc := true }

/-- A zone across the pages of 2 MB. -/
def smallZone : Memzone := { addr64 := 0x7f00001ff000, physAddr := 0x401ff000, len := 0x2000, hugepageSz := 0x200000 }

/-- A zone on the page of 1 GB. -/
def bigZone : Memzone := { addr64 := 0x7f8000001000, physAddr := 0x140001000, len := 0x1000, hugepageSz := 0x40000000 }

def twoSizesConfig : Config :=
  ((Config.create "pp".toList).add ⟨twoSizesEnv, smallZone⟩).add ⟨twoSizesEnv, bigZone⟩

private theorem twoSizes_built : Built (GoodEnv twoSizes twoSizesFile) (GoodZone twoSizes) twoSizesConfig := by
  have henv : GoodEnv twoSizes twoSizesFile twoSizesEnv := ⟨sortEntries_sorts, twoSizesLines, twoSizes_showsMaps, rfl⟩
  have hsmall : GoodZone twoSizes smallZone :=
    ⟨⟨_, List.mem_cons_self, by decide, by decide, by decide, by decide⟩, by decide⟩
  have hbig : GoodZone twoSizes bigZone :=
    ⟨⟨_, List.mem_cons_of_mem _ List.mem_cons_self, by decide, by decide, by decide, by decide⟩, by decide⟩
  have h1 : (Config.create "pp".toList).Succeeds ⟨twoSizesEnv, smallZone⟩ := by decide +kernel
  have h2 : ((Config.create "pp".toList).add ⟨twoSizesEnv, smallZone⟩).Succeeds ⟨twoSizesEnv, bigZone⟩ := by
    decide +kernel
  exact ((Built.create "pp".toList).of_succeeds henv hsmall h1).of_succeeds henv hbig h2

/-- The page sizes of the file systems. -/
def twoSizesPageSize (path : CStr) : Nat :=
  if path = rtemap0 then 0x200000 else if path = rtemap1 then 0x40000000 else 0x1000

/-- A kernel that gives an area at an odd page and maps every file where it is asked to. -/
def easyKernel : Kernel := ⟨true, fun _ => some 0x7e0000001000, fun addr _ => some addr⟩

end SoftPatchPanel.Qemu

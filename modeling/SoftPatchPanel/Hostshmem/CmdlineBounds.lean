import SoftPatchPanel.Hostshmem.Create
import SoftPatchPanel.Lib.Strtoull

/-!
# The working buffer of the command line

The texts of the files are printed one behind the other into a buffer of 1024 bytes.  `snprintf` returns the length that
a text would have had; it is subtracted from the unsigned `remaining_len`, and the result is compared with 0 only.  Here
the calls are followed with the bytes that they write (`Config.cmdlineTrace`).

What should be printed are all non-empty segments of the cache and the file that was created for the metadata
(`Config.wholeText`).  What is printed are the segments up to the first empty one, and the name that is stored in the
metadata, which is cut to 31 characters.  The function does as it should exactly when no text is longer than what remains,
the buffer of the caller has room for the header too, the cache has no gap and the name was not cut (`cmdlineRight_iff`).
As long as nothing wraps around, the result is the one of `Config.cmdlineGenerate` (`cmdlineTrace_eq`).
-/

namespace SoftPatchPanel.Hostshmem

open Lib

/-! ### Printing -/

/-- The working buffer: the string in it, `cmdline_ptr` as an index, `remaining_len`, the indices of the bytes that are
written, and whether a subtraction from `remaining_len` wrapped around. -/
structure Printer where
  text : CStr := []
  ptr : Nat := 0
  remainingLen : UInt32 := 1024
  writes : List Nat := []
  wrapped : Bool := false

/-- The number of bytes that `snprintf` writes, with the NUL. -/
def snprintfBytes (size : Nat) (text : CStr) : Nat := if size = 0 then 0 else (snprintf size text).length + 1

/-- One `snprintf` into the rest of the buffer.  After a text that was cut off, the next one lies behind its NUL. -/
def Printer.print (p : Printer) (fd : CStr) : Printer where
  text := if p.wrapped then p.text else p.text ++ snprintf p.remainingLen.toNat fd
  ptr := p.ptr + fd.length
  remainingLen := p.remainingLen - UInt32.ofNat fd.length
  writes := p.writes ++ List.range' p.ptr (snprintfBytes p.remainingLen.toNat fd)
  wrapped := p.wrapped || p.remainingLen.toNat < fd.length

/-- The loop over the cache, with `shared_mem_size` unless the command line is too long. -/
def Printer.printSegments : List CacheEntry → Nat → Printer → UInt64 → Printer × Option UInt64
  | [], _, p, shared => (p, some shared)
  | e :: es, iter, p, shared =>
    if e.len ≠ 0 ∧ iter < hostshmemMaxEntries then
      let p := p.print (qemuCmdFdFmt e.filepath e.offset e.len)
      if p.remainingLen = 0 then (p, none) else Printer.printSegments es (iter + 1) p (shared + e.len)
    else (p, some shared)

/-- The part of `rte_hostshmem_metadata_cmdline_generate` under the lock of the config: the working buffer, and what the
buffer of the caller holds if the function returns 0. -/
def Config.cmdlineTrace (pagesz : UInt64) (config : Config) (size : UInt32) : Printer × Option CStr :=
  let cfgFilePath := snprintf pathMax (configFileFmt config.name)
  match Printer.printSegments config.memsegCache 0 {} 0 with
  | (p, none) => (p, none)
  | (p, some shared) =>
    let total := align64pow2 (shared + metadataSizeAligned pagesz)
    let zero := total - shared - metadataSizeAligned pagesz
    let p := p.print (qemuCmdFdFmt "/dev/zero".toList 0 zero)
    if p.remainingLen = 0 then (p, none)
    else
      let p := p.print (qemuCmdFdFmt cfgFilePath 0 (metadataSizeAligned pagesz))
      if p.remainingLen = 0 then (p, none)
      else if size.toUInt64 < UInt64.ofNat qemuCmdlineBufsize - p.remainingLen.toUInt64 then (p, none)
      else (p, some (snprintf size.toNat (qemuCmdLineHeaderFmt (total >>> 20) p.text)))

/-- The text of a file. -/
def CacheEntry.text (e : CacheEntry) : CStr := qemuCmdFdFmt e.filepath e.offset e.len

/-- The line for some segments: the header, the segments, `/dev/zero` up to a power of two, and the metadata. -/
def deviceLine (pagesz : UInt64) (segs : List CacheEntry) (metadata : CStr) : CStr :=
  let shared := segs.foldr (fun e size => e.len + size) 0
  let total := align64pow2 (shared + metadataSizeAligned pagesz)
  qemuCmdLineHeaderFmt (total >>> 20)
    ((segs.map CacheEntry.text).flatten ++
      (CacheEntry.text ⟨"/dev/zero".toList, 0, total - shared - metadataSizeAligned pagesz⟩ ++
        CacheEntry.text ⟨metadata, 0, metadataSizeAligned pagesz⟩))

/-- The line that is asked for: every non-empty segment of the cache, and the file that was created under the name. -/
def Config.wholeText (pagesz : UInt64) (created : CStr) (config : Config) : CStr :=
  deviceLine pagesz (config.memsegCache.filter fun e => e.len ≠ 0) (hostshmemConfigPath created)

/-- What is expected of the function, for a config that was created under a name. -/
structure CmdlineRight (pagesz : UInt64) (created : CStr) (config : Config) (size : UInt32) : Prop where
  inside : ∀ i ∈ (config.cmdlineTrace pagesz size).1.writes, i < qemuCmdlineBufsize
  noWrap : (config.cmdlineTrace pagesz size).1.wrapped = false
  complete : ∀ text, (config.cmdlineTrace pagesz size).2 = some text →
    text = config.wholeText pagesz created ∧ text.length < size.toNat

/-- No entry of the cache behind an empty one is used. -/
def Config.NoGap (config : Config) : Prop := config.memsegCache.Pairwise fun a b => a.len = 0 → b.len = 0

/-- Each text leaves room for a NUL, up to one that fills the room exactly, after which the function gives up. -/
def Fits : Nat → List CStr → Prop
  | _, [] => True
  | room, fd :: fds => fd.length ≤ room ∧ (fd.length < room → Fits (room - fd.length) fds)

/-- The texts of the files. -/
def Config.fdTexts (pagesz : UInt64) (config : Config) : List CStr := (config.deviceFiles pagesz).map CacheEntry.text

/-! ### One text after another -/

instance decidableFits : (room : Nat) → (fds : List CStr) → Decidable (Fits room fds)
  | _, [] => inferInstanceAs (Decidable True)
  | room, fd :: fds =>
    have := decidableFits (room - fd.length) fds
    inferInstanceAs (Decidable (fd.length ≤ room ∧ (fd.length < room → Fits (room - fd.length) fds)))

private theorem fits_append {room : Nat} (hroom : 0 < room) {fds fds' : List CStr} :
    Fits room (fds ++ fds') ↔
      Fits room fds ∧ (fds.flatten.length < room → Fits (room - fds.flatten.length) fds') := by
  induction fds generalizing room with
  | nil => simp [Fits, hroom]
  | cons fd fds ih =>
    rw [List.cons_append, Fits, Fits, List.flatten_cons, List.length_append]
    rcases Nat.lt_or_ge fd.length room with hlt | hge
    · rw [ih (Nat.sub_pos_of_lt hlt), Nat.sub_add_eq, ← Nat.lt_sub_iff_add_lt']
      simp only [hlt, forall_const, and_assoc]
    · constructor
      · exact fun h => ⟨⟨h.1, fun hlt => absurd hlt (by omega)⟩, fun hlt => absurd hlt (by omega)⟩
      · exact fun h => ⟨h.1.1, fun hlt => absurd hlt (by omega)⟩

private theorem fits_of_lt {room : Nat} {fds : List CStr} (h : fds.flatten.length < room) : Fits room fds := by
  induction fds generalizing room with
  | nil => exact trivial
  | cons fd fds ih =>
    rw [List.flatten_cons, List.length_append] at h
    exact ⟨by omega, fun _ => ih (by omega)⟩

/-- The buffer while nothing is cut off: `room` bytes remain behind the string. -/
private structure Printing (p : Printer) (room : Nat) : Prop where
  wrapped : p.wrapped = false
  ptr : p.ptr = p.text.length
  remaining : p.remainingLen.toNat = room
  total : p.text.length + room = qemuCmdlineBufsize
  inside : ∀ i ∈ p.writes, i < qemuCmdlineBufsize

private theorem printing_init : Printing {} qemuCmdlineBufsize :=
  ⟨rfl, rfl, rfl, rfl, nofun⟩

section

variable {p : Printer} {room : Nat} {fd : CStr}

/-- The bytes that are written are those of the rest. -/
private theorem Printing.writes (h : Printing p room) (fd : CStr) :
    ∀ i ∈ (p.print fd).writes, i < qemuCmdlineBufsize := by
  intro i hi
  rcases List.mem_append.1 hi with hi | hi
  · exact h.inside i hi
  · have hi := List.mem_range'_1.1 hi
    have hbytes : snprintfBytes p.remainingLen.toNat fd ≤ room := by
      rw [h.remaining, snprintfBytes, snprintf, List.length_take]
      split <;> omega
    have hptr := h.ptr
    have htotal := h.total
    omega

private theorem Printing.remainingLen (h : Printing p room) (hfd : fd.length ≤ room) :
    (p.print fd).remainingLen.toNat = room - fd.length := by
  have hlt := UInt32.toNat_lt p.remainingLen
  rw [h.remaining] at hlt
  have hnat : (UInt32.ofNat fd.length).toNat = fd.length := by
    rw [UInt32.toNat_ofNat']
    exact Nat.mod_eq_of_lt (by omega)
  rw [Printer.print, UInt32.toNat_sub_of_le _ _ (by rw [UInt32.le_iff_toNat_le, hnat, h.remaining]; exact hfd), hnat,
    h.remaining]

private theorem Printing.print (h : Printing p room) (hfd : fd.length < room) :
    Printing (p.print fd) (room - fd.length) ∧ (p.print fd).text = p.text ++ fd := by
  have htext : (p.print fd).text = p.text ++ fd := by
    simp only [Printer.print, h.wrapped, h.remaining, snprintf, List.take_of_length_le (Nat.le_sub_one_of_lt hfd)]
    rfl
  refine ⟨⟨?_, ?_, h.remainingLen (Nat.le_of_lt hfd), ?_, h.writes fd⟩, htext⟩
  · simp [Printer.print, h.wrapped, h.remaining, Nat.le_of_lt hfd]
  · rw [htext, List.length_append, ← h.ptr]
    rfl
  · have htotal := h.total
    rw [htext, List.length_append]
    omega

/-- A text that fills the rest ends the function. -/
private theorem Printing.print_full (h : Printing p room) (hfd : fd.length = room) :
    (p.print fd).remainingLen = 0 ∧ (p.print fd).wrapped = false := by
  refine ⟨?_, by simp [Printer.print, h.wrapped, h.remaining, hfd]⟩
  rw [← UInt32.toNat_inj, h.remainingLen (Nat.le_of_eq hfd), hfd, Nat.sub_self]
  rfl

/-- The last check compares `size` with the length of the string. -/
private theorem Printing.check (h : Printing p room) (size : UInt32) :
    size.toUInt64 < UInt64.ofNat qemuCmdlineBufsize - p.remainingLen.toUInt64 ↔ size.toNat < p.text.length := by
  have hremaining : p.remainingLen.toUInt64.toNat = room := h.remaining
  have hbuf : (UInt64.ofNat qemuCmdlineBufsize).toNat = qemuCmdlineBufsize := rfl
  have htotal := h.total
  rw [UInt64.lt_iff_toNat_lt, UInt64.toNat_sub_of_le _ _ (by rw [UInt64.le_iff_toNat_le, hremaining, hbuf]; omega),
    hremaining, hbuf, UInt32.toNat_toUInt64]
  omega

private theorem Printing.print_long (h : Printing p room) (hfd : room < fd.length) : (p.print fd).wrapped = true := by
  simp [Printer.print, h.remaining, hfd]

end

/-- The texts one after another, up to one that fills the buffer; and whether there is none. -/
private def printAll : List CStr → Printer → Printer × Bool
  | [], p => (p, true)
  | fd :: fds, p => if (p.print fd).remainingLen = 0 then (p.print fd, false) else printAll fds (p.print fd)

section

variable {p : Printer} {room : Nat} {fds : List CStr}

private theorem remainingLen_ne_zero (h : Printing p room) (hroom : 0 < room) : p.remainingLen ≠ 0 := by
  intro hzero
  have hremaining := h.remaining
  rw [hzero] at hremaining
  exact Nat.ne_of_lt hroom hremaining

private theorem printAll_of_lt (h : Printing p room) (hlt : fds.flatten.length < room) :
    ∃ p', printAll fds p = (p', true) ∧ Printing p' (room - fds.flatten.length) ∧ p'.text = p.text ++ fds.flatten := by
  induction fds generalizing p room with
  | nil => exact ⟨p, rfl, h, (List.append_nil _).symm⟩
  | cons fd fds ih =>
    rw [List.flatten_cons, List.length_append] at hlt
    obtain ⟨hprint, htext⟩ := h.print (show fd.length < room by omega)
    obtain ⟨p', hall, hprint', htext'⟩ := ih hprint (by omega)
    refine ⟨p', ?_, ?_, ?_⟩
    · rw [printAll, if_neg (remainingLen_ne_zero hprint (by omega)), hall]
    · rwa [List.flatten_cons, List.length_append, Nat.sub_add_eq]
    · rw [htext', htext, List.flatten_cons, List.append_assoc]

private theorem printAll_of_ge (hroom : 0 < room) (h : Printing p room) (hfits : Fits room fds)
    (hge : room ≤ fds.flatten.length) : (printAll fds p).2 = false ∧ (printAll fds p).1.wrapped = false ∧
      ∀ i ∈ (printAll fds p).1.writes, i < qemuCmdlineBufsize := by
  induction fds generalizing p room with
  | nil => exact absurd hge (Nat.not_le_of_lt hroom)
  | cons fd fds ih =>
    rw [List.flatten_cons, List.length_append] at hge
    rcases Nat.lt_or_eq_of_le hfits.1 with hlt | heq
    · obtain ⟨hprint, -⟩ := h.print hlt
      have hpos : 0 < room - fd.length := by omega
      rw [printAll, if_neg (remainingLen_ne_zero hprint hpos)]
      exact ih hpos hprint (hfits.2 hlt) (by omega)
    · obtain ⟨hzero, hwrapped⟩ := h.print_full heq
      rw [printAll, if_pos hzero]
      exact ⟨rfl, hwrapped, h.writes fd⟩

private theorem print_wrapped (h : p.wrapped = true) (fd : CStr) : (p.print fd).wrapped = true := by
  simp [Printer.print, h]

private theorem printAll_wrapped (h : p.wrapped = true) (fds : List CStr) : (printAll fds p).1.wrapped = true := by
  induction fds generalizing p with
  | nil => exact h
  | cons fd fds ih =>
    rw [printAll]
    split
    · exact print_wrapped h fd
    · exact ih (print_wrapped h fd)

private theorem printAll_not_fits (hroom : 0 < room) (h : Printing p room) (hfits : ¬Fits room fds) :
    (printAll fds p).1.wrapped = true := by
  induction fds generalizing p room with
  | nil => exact absurd trivial hfits
  | cons fd fds ih =>
    rw [printAll]
    rcases Nat.lt_trichotomy fd.length room with hlt | heq | hgt
    · obtain ⟨hprint, -⟩ := h.print hlt
      have hpos : 0 < room - fd.length := by omega
      rw [if_neg (remainingLen_ne_zero hprint hpos)]
      exact ih hpos hprint fun hrest => hfits ⟨Nat.le_of_lt hlt, fun _ => hrest⟩
    · exact absurd ⟨Nat.le_of_eq heq, fun hlt => absurd hlt (by omega)⟩ hfits
    · split
      · exact h.print_long hgt
      · exact printAll_wrapped (h.print_long hgt) fds

end

/-! ### The function -/

private theorem length_text (e : CacheEntry) : 9 ≤ e.text.length := by
  have hoffset : 0 < (formatX e.offset.toNat).length := List.length_pos_iff.2 Nat.toDigits_ne_nil
  have hlen : 0 < (formatX e.len.toNat).length := List.length_pos_iff.2 Nat.toDigits_ne_nil
  have htexts : ":".toList.length = 1 ∧ ":0x".toList.length = 3 := by decide
  simp only [CacheEntry.text, qemuCmdFdFmt, List.length_append]
  omega

/-- The segments that the loop can print: the cache up to its first empty entry, and no more than there are entries. -/
private def printed (iter : Nat) (es : List CacheEntry) : List CacheEntry :=
  (es.takeWhile (fun e => e.len ≠ 0)).take (hostshmemMaxEntries - iter)

private theorem printSegments_printAll (es : List CacheEntry) (iter : Nat) (p : Printer) (shared : UInt64) :
    Printer.printSegments es iter p shared =
      ((printAll ((printed iter es).map CacheEntry.text) p).1,
        if (printAll ((printed iter es).map CacheEntry.text) p).2 then
          some (shared + (printed iter es).foldr (fun e size => e.len + size) 0)
        else none) := by
  induction es generalizing iter p shared with
  | nil => simp [Printer.printSegments, printed, printAll]
  | cons e es ih =>
    rw [Printer.printSegments]
    by_cases hlen : e.len = 0
    · simp [printed, printAll, hlen]
    by_cases hiter : iter < hostshmemMaxEntries
    · have hcons : printed iter (e :: es) = e :: printed (iter + 1) es := by
        rw [printed, List.takeWhile_cons_of_pos (by simpa using hlen),
          show hostshmemMaxEntries - iter = hostshmemMaxEntries - (iter + 1) + 1 by omega, List.take_succ_cons]
        rfl
      rw [if_pos ⟨hlen, hiter⟩, hcons, List.map_cons, printAll]
      by_cases hzero : (p.print e.text).remainingLen = 0
      · rw [if_pos hzero]
        exact if_pos hzero
      · rw [if_neg hzero, List.foldr_cons, ← UInt64.add_assoc]
        exact (if_neg hzero).trans (ih _ _ _)
    · have hnil : printed iter (e :: es) = [] := by simp [printed, Nat.sub_eq_zero_of_le (Nat.le_of_not_lt hiter)]
      rw [if_neg (fun h => hiter h.2), hnil]
      simp [printAll]

section

variable {pagesz : UInt64} {config : Config} {size : UInt32}

/-- The texts that follow the segments when these have the size `shared`. -/
private def lastTexts (pagesz : UInt64) (config : Config) (shared : UInt64) : List CStr :=
  [qemuCmdFdFmt "/dev/zero".toList 0
      (align64pow2 (shared + metadataSizeAligned pagesz) - shared - metadataSizeAligned pagesz),
    qemuCmdFdFmt (snprintf pathMax (configFileFmt config.name)) 0 (metadataSizeAligned pagesz)]

/-- The function stops in the segments. -/
private theorem cmdlineTrace_of_false
    (h : (printAll ((printed 0 config.memsegCache).map CacheEntry.text) {}).2 = false) :
    config.cmdlineTrace pagesz size = ((printAll ((printed 0 config.memsegCache).map CacheEntry.text) {}).1, none) := by
  rw [Config.cmdlineTrace, printSegments_printAll, h]
  rfl

/-- The function goes on behind the segments. -/
private theorem cmdlineTrace_of_true {p : Printer} {shared : UInt64}
    (h : printAll ((printed 0 config.memsegCache).map CacheEntry.text) {} = (p, true))
    (hshared : (printed 0 config.memsegCache).foldr (fun e size => e.len + size) 0 = shared) :
    config.cmdlineTrace pagesz size =
      ((printAll (lastTexts pagesz config shared) p).1,
        if (printAll (lastTexts pagesz config shared) p).2 ∧ ¬size.toUInt64 < UInt64.ofNat qemuCmdlineBufsize -
            (printAll (lastTexts pagesz config shared) p).1.remainingLen.toUInt64 then
          some (snprintf size.toNat (qemuCmdLineHeaderFmt (align64pow2 (shared + metadataSizeAligned pagesz) >>> 20)
            (printAll (lastTexts pagesz config shared) p).1.text))
        else none) := by
  rw [Config.cmdlineTrace, printSegments_printAll, h, hshared]
  simp only [if_true, UInt64.zero_add, lastTexts, printAll]
  generalize qemuCmdFdFmt "/dev/zero".toList 0 _ = zero
  generalize qemuCmdFdFmt _ 0 (metadataSizeAligned pagesz) = last
  by_cases h1 : (p.print zero).remainingLen = 0
  · simp [h1]
  by_cases h2 : ((p.print zero).print last).remainingLen = 0
  · simp [h1, h2]
  · simp only [h1, h2, if_false]
    split_ifs <;> simp_all

/-- What wraps around in the segments is not undone. -/
private theorem cmdlineTrace_wrapped
    (h : (printAll ((printed 0 config.memsegCache).map CacheEntry.text) {}).1.wrapped = true) :
    (config.cmdlineTrace pagesz size).1.wrapped = true := by
  cases hsnd : (printAll ((printed 0 config.memsegCache).map CacheEntry.text) {}).2 with
  | false => rwa [cmdlineTrace_of_false hsnd]
  | true =>
    rw [cmdlineTrace_of_true (Prod.ext rfl hsnd) rfl]
    exact printAll_wrapped h _

end

/-! ### The texts -/

section

variable (pagesz : UInt64) (config : Config)

/-- The texts behind the segments, with the whole name of the metadata file. -/
private def fullLast : List CStr :=
  [qemuCmdFdFmt "/dev/zero".toList 0 (config.totalSize pagesz - config.sharedMemSize - metadataSizeAligned pagesz),
    qemuCmdFdFmt (configFileFmt config.name) 0 (metadataSizeAligned pagesz)]

private theorem fdTexts_eq : config.fdTexts pagesz = config.segments.map CacheEntry.text ++ fullLast pagesz config := by
  rw [Config.fdTexts, Config.deviceFiles, List.map_append]
  rfl

private theorem flatten_fdTexts : (config.fdTexts pagesz).flatten = config.fullCmdline pagesz := by
  rw [Config.fdTexts, Config.fullCmdline]
  induction config.deviceFiles pagesz with
  | nil => rfl
  | cons e es ih =>
    rw [List.map_cons, List.flatten_cons, ih, CacheEntry.text, qemuCmdFdFmt_eq, List.flatMap_cons, separated_append]

/-- The name of the metadata file is printed whole, or its text has no room anyway. -/
private theorem lastTexts_cases :
    lastTexts pagesz config config.sharedMemSize = fullLast pagesz config ∨
      ∀ room ≤ qemuCmdlineBufsize,
        (Fits room (lastTexts pagesz config config.sharedMemSize) ↔ Fits room (fullLast pagesz config)) ∧
        room ≤ (lastTexts pagesz config config.sharedMemSize).flatten.length ∧
        room ≤ (fullLast pagesz config).flatten.length := by
  have hlong : ∀ path : CStr, path.length ≤ (qemuCmdFdFmt path 0 (metadataSizeAligned pagesz)).length := by
    intro path
    simp only [qemuCmdFdFmt, List.length_append]
    omega
  rcases Nat.lt_or_ge (configFileFmt config.name).length pathMax with hshort | hge
  · left
    rw [lastTexts, snprintf, List.take_of_length_le (Nat.le_sub_one_of_lt hshort)]
    rfl
  · right
    intro room hroom
    have hcut := hlong (snprintf pathMax (configFileFmt config.name))
    have hwhole := hlong (configFileFmt config.name)
    rw [snprintf, List.length_take, Nat.min_eq_left (by omega)] at hcut
    simp only [pathMax, qemuCmdlineBufsize] at hge hcut hroom
    simp only [lastTexts, fullLast, Config.totalSize, Fits, List.flatten_cons, List.flatten_nil, List.append_nil,
      List.length_append, snprintf, pathMax]
    generalize (qemuCmdFdFmt "/dev/zero".toList 0 _).length = n
    refine ⟨and_congr_right fun _ => imp_congr_right fun _ => ?_, by omega, by omega⟩
    exact ⟨fun h => absurd h.1 (by omega), fun h => absurd h.1 (by omega)⟩

end

private theorem length_flatten_texts (es : List CacheEntry) :
    9 * es.length ≤ (es.map CacheEntry.text).flatten.length := by
  induction es with
  | nil => exact Nat.zero_le _
  | cons e es ih =>
    have hfd := length_text e
    rw [List.map_cons, List.flatten_cons, List.length_append, List.length_cons]
    omega

/-! ### The line that is asked for

A line with more segments is not a beginning of one with fewer.  The digits of the two sizes are the same, since an `M`
ends them.  The texts of the further segments are then read as a beginning of that of `/dev/zero`, and the next text
would have to start in its numbers. -/

/-- What stands before the first occurrence of a character is the same in a beginning of a text. -/
private theorem prefix_of_mark {c : Char} {xs xs' ys ys' : CStr} (hxs : c ∉ xs) (hxs' : c ∉ xs')
    (h : xs ++ c :: ys <+: xs' ++ c :: ys') : xs = xs' ∧ ys <+: ys' := by
  induction xs generalizing xs' with
  | nil =>
    cases xs' with
    | nil => exact ⟨rfl, (List.cons_prefix_cons.1 h).2⟩
    | cons x xs' => exact absurd (List.mem_cons.2 (Or.inl (List.cons_prefix_cons.1 h).1)) hxs'
  | cons x xs ih =>
    cases xs' with
    | nil => exact absurd (List.mem_cons.2 (Or.inl (List.cons_prefix_cons.1 h).1.symm)) hxs
    | cons x' xs' =>
      obtain ⟨rfl, hrest⟩ := List.cons_prefix_cons.1 h
      obtain ⟨rfl, hys⟩ := ih (hxs ∘ List.mem_cons_of_mem _) (hxs' ∘ List.mem_cons_of_mem _) hrest
      exact ⟨rfl, hys⟩

/-- The text of `/dev/zero`. -/
private def zeroText (len : UInt64) : CStr := CacheEntry.text ⟨"/dev/zero".toList, 0, len⟩

/-- No slash follows the name in the text of `/dev/zero`. -/
private theorem not_mem_drop_zeroText (len : UInt64) : '/' ∉ (zeroText len).drop 10 := by
  have hdrop : (zeroText len).drop 10 = ":0x0:0x".toList ++ formatX len.toNat := by
    simp [zeroText, CacheEntry.text, qemuCmdFdFmt, formatX]
  rw [hdrop, List.mem_append, not_or]
  exact ⟨by decide, fun h => forall_mem_toDigits (P := fun d => d ≠ '/') (show 1 < 16 by decide) (by decide) _ '/' h rfl⟩

/-- The text of `/dev/zero` does not start within another one, behind its first nine characters. -/
private theorem not_prefix_zeroText {fds : CStr} (hfds : 9 ≤ fds.length) (len len' : UInt64) :
    ¬fds ++ zeroText len' <+: zeroText len := by
  rintro ⟨rest, h⟩
  refine not_mem_drop_zeroText len ?_
  rw [← h, List.append_assoc, List.drop_append, List.mem_append]
  right
  have hslash : ∀ n ≤ 1, '/' ∈ (zeroText len').drop n := by
    intro n hn
    interval_cases n <;> simp [zeroText, CacheEntry.text, qemuCmdFdFmt]
  have hle : 10 - fds.length ≤ 1 := by omega
  rw [List.drop_append, List.mem_append]
  exact Or.inl (hslash _ hle)

/-- The parts of a line; the sizes depend on the segments alone. -/
private theorem deviceLine_parts (pagesz : UInt64) (segs : List CacheEntry) :
    ∃ size zero, ∀ metadata, deviceLine pagesz segs metadata =
      "-device hostshmem,size=".toList ++ (formatU size ++ 'M' :: (",shm=fd".toList ++
        ((segs.map CacheEntry.text).flatten ++
          (zeroText zero ++ CacheEntry.text ⟨metadata, 0, metadataSizeAligned pagesz⟩)))) := by
  have hmark : "M,shm=fd".toList = 'M' :: ",shm=fd".toList := by decide
  generalize htotal : align64pow2 (segs.foldr (fun e size => e.len + size) 0 + metadataSizeAligned pagesz) = total
  refine ⟨(total >>> 20).toNat, total - segs.foldr (fun e size => e.len + size) 0 - metadataSizeAligned pagesz,
    fun metadata => ?_⟩
  unfold deviceLine qemuCmdLineHeaderFmt
  dsimp only
  rw [htotal, List.append_assoc, List.append_assoc, hmark, List.cons_append, zeroText]

section

variable {pagesz : UInt64} {segs more : List CacheEntry} {path path' : CStr}

private theorem length_text_mono (hpath : path.length ≤ path'.length) (len : UInt64) :
    (CacheEntry.text ⟨path, 0, len⟩).length ≤ (CacheEntry.text ⟨path', 0, len⟩).length := by
  simp only [CacheEntry.text, qemuCmdFdFmt, List.length_append]
  omega

/-- A line with more segments, and with a name of the metadata that is not shorter, is not a beginning of the line. -/
private theorem deviceLine_more (hpath : path.length ≤ path'.length)
    (h : deviceLine pagesz (segs ++ more) path' <+: deviceLine pagesz segs path) : more = [] := by
  have hdigits : ∀ n, 'M' ∉ formatU n := fun n hmem =>
    forall_mem_toDigits (P := fun d => d ≠ 'M') (show 1 < 10 by decide) (by decide) n 'M' hmem rfl
  obtain ⟨size, zero, hline⟩ := deviceLine_parts pagesz segs
  obtain ⟨size', zero', hline'⟩ := deviceLine_parts pagesz (segs ++ more)
  rw [hline, hline', List.prefix_append_right_inj] at h
  obtain ⟨-, hfiles⟩ := prefix_of_mark (hdigits _) (hdigits _) h
  rw [List.prefix_append_right_inj, List.map_append, List.flatten_append, List.append_assoc,
    List.prefix_append_right_inj, ← List.append_assoc] at hfiles
  by_contra hne
  have hlast := length_text_mono hpath (metadataSizeAligned pagesz)
  have hcount := length_flatten_texts more
  have hpos := List.length_pos_iff.2 hne
  have hle := hfiles.length_le
  simp only [List.length_append] at hle
  exact not_prefix_zeroText (show 9 ≤ (more.map CacheEntry.text).flatten.length by omega) zero zero'
    (List.prefix_of_prefix_length_le ((List.prefix_append _ _).trans hfiles) (List.prefix_append _ _)
      (by rw [List.length_append]; omega))

private theorem deviceLine_path (hpath : path.length ≤ path'.length)
    (h : deviceLine pagesz segs path' <+: deviceLine pagesz segs path) : path' = path := by
  obtain ⟨size, zero, hline⟩ := deviceLine_parts pagesz segs
  rw [hline, hline, List.prefix_append_right_inj, List.prefix_append_right_inj, List.cons_prefix_cons] at h
  simp only [List.prefix_append_right_inj, true_and] at h
  have htext := h.eq_of_length_le (length_text_mono hpath _)
  simpa only [CacheEntry.text, qemuCmdFdFmt, List.append_assoc, List.append_cancel_left_eq,
    List.append_cancel_right_eq] using htext

end

/-- The segments that are printed, and those behind a gap. -/
private theorem filter_memsegCache (config : Config) :
    config.memsegCache.filter (fun e => e.len ≠ 0) =
      config.segments ++ (config.memsegCache.dropWhile fun e => e.len ≠ 0).filter (fun e => e.len ≠ 0) := by
  conv_lhs =>
    rw [← List.takeWhile_append_dropWhile (p := fun e : CacheEntry => decide (e.len ≠ 0)) (l := config.memsegCache)]
  rw [List.filter_append, List.filter_eq_self.2 fun e he => (List.all_eq_true.1 List.all_takeWhile e he)]
  rfl

private theorem noGap_iff (config : Config) :
    config.NoGap ↔ (config.memsegCache.dropWhile fun e => e.len ≠ 0).filter (fun e => e.len ≠ 0) = [] := by
  rw [Config.NoGap]
  induction config.memsegCache with
  | nil => simp
  | cons e es ih =>
    rw [List.pairwise_cons]
    by_cases hlen : e.len = 0
    · rw [List.dropWhile_cons_of_neg (by simpa using hlen), List.filter_cons_of_neg (by simpa using hlen),
        List.filter_eq_nil_iff]
      constructor
      · exact fun h e' he' => by simpa using h.1 e' he' hlen
      · intro h
        have hzero : ∀ e' ∈ es, e'.len = 0 := fun e' he' => by simpa using h e' he'
        exact ⟨fun e' he' _ => hzero e' he', List.pairwise_of_forall_mem_list fun _ _ e' he' _ => hzero e' he'⟩
    · rw [List.dropWhile_cons_of_pos (by simpa using hlen), ← ih]
      exact and_iff_right fun _ _ h => absurd h hlen

/-- The text of the device as the function prints it. -/
private theorem fullText_eq (pagesz : UInt64) (config : Config) :
    config.fullText pagesz = deviceLine pagesz config.segments (configFileFmt config.name) := by
  rw [Config.fullText, ← flatten_fdTexts, fdTexts_eq, List.flatten_append, deviceLine]
  simp only [fullLast, List.flatten_cons, List.flatten_nil, List.append_nil]
  rfl

private theorem length_configFileFmt (name : CStr) : (configFileFmt name).length = 34 + name.length := by
  unfold configFileFmt
  rw [List.length_append]
  rfl

/-- The line that is asked for is a beginning of the printed one only if it is that line. -/
private theorem noGap_of_prefix {pagesz : UInt64} {created : CStr} {config : Config}
    (hname : config.name = snprintf hostshmemNameLen created)
    (h : config.wholeText pagesz created <+: config.fullText pagesz) :
    config.NoGap ∧ created.length < hostshmemNameLen := by
  have hcut : (configFileFmt config.name).length ≤ (hostshmemConfigPath created).length := by
    simp only [hname, hostshmemConfigPath, snprintf, length_configFileFmt, List.length_take, pathMax, hostshmemNameLen]
    omega
  rw [fullText_eq, Config.wholeText, filter_memsegCache] at h
  have hmore := deviceLine_more hcut h
  rw [hmore, List.append_nil] at h
  have hpath := congrArg List.length (deviceLine_path hcut h)
  refine ⟨(noGap_iff config).2 hmore, ?_⟩
  simp only [hname, hostshmemConfigPath, snprintf, length_configFileFmt, List.length_take, pathMax,
    hostshmemNameLen] at hpath ⊢
  omega

private theorem wholeText_eq {pagesz : UInt64} {created : CStr} {config : Config}
    (hname : config.name = snprintf hostshmemNameLen created) (hgap : config.NoGap)
    (hcreated : created.length < hostshmemNameLen) : config.wholeText pagesz created = config.fullText pagesz := by
  have hstored : config.name = created := hname.trans (List.take_of_length_le (Nat.le_sub_one_of_lt hcreated))
  have hpath : hostshmemConfigPath created = configFileFmt created := by
    refine List.take_of_length_le ?_
    simp only [length_configFileFmt, pathMax, hostshmemNameLen] at hcreated ⊢
    omega
  rw [fullText_eq, Config.wholeText, filter_memsegCache, (noGap_iff config).1 hgap, List.append_nil, hpath, hstored]

/-- What is expected of a function that does not print beyond its buffer. -/
private theorem right_iff_of_lt {pagesz : UInt64} {created : CStr} {config : Config} {size : UInt32} {p : Printer}
    {room : Nat} (hname : config.name = snprintf hostshmemNameLen created) (hp : Printing p room)
    (htext : p.text = config.fullCmdline pagesz)
    (htrace : config.cmdlineTrace pagesz size =
      (p, if size.toUInt64 < UInt64.ofNat qemuCmdlineBufsize - p.remainingLen.toUInt64 then none
        else some (snprintf size.toNat (config.fullText pagesz)))) :
    CmdlineRight pagesz created config size ↔
      size.toNat < (config.fullCmdline pagesz).length ∨
        (config.fullText pagesz).length < size.toNat ∧ config.NoGap ∧ created.length < hostshmemNameLen := by
  have hcheck := hp.check size
  rw [htext] at hcheck
  constructor
  · intro h
    by_cases hsize : size.toNat < (config.fullCmdline pagesz).length
    · exact Or.inl hsize
    · have hsome : (config.cmdlineTrace pagesz size).2 = some (snprintf size.toNat (config.fullText pagesz)) := by
        simp only [htrace, hcheck, if_neg hsize]
      obtain ⟨hwhole, hlt⟩ := h.complete _ hsome
      have hprefix : config.wholeText pagesz created <+: config.fullText pagesz := by
        rw [← hwhole]
        exact List.take_prefix _ _
      have hsound := noGap_of_prefix hname hprefix
      rw [hwhole, wholeText_eq hname hsound.1 hsound.2] at hlt
      exact Or.inr ⟨hlt, hsound⟩
  · intro h
    refine ⟨by rw [htrace]; exact hp.inside, by rw [htrace]; exact hp.wrapped, fun text hsome => ?_⟩
    rw [htrace] at hsome
    simp only [hcheck] at hsome
    split_ifs at hsome with hsize
    obtain ⟨hlt, hgap, hcreated⟩ := h.resolve_left hsize
    have hwhole : snprintf size.toNat (config.fullText pagesz) = config.fullText pagesz :=
      List.take_of_length_le (Nat.le_sub_one_of_lt hlt)
    rw [hwhole] at hsome
    cases hsome
    exact ⟨(wholeText_eq hname hgap hcreated).symm, hlt⟩

/-- What is expected of a function that ends in texts which are too long together. -/
private theorem right_iff_of_ge {pagesz : UInt64} {created : CStr} {config : Config} {size : UInt32} {p : Printer}
    {room : Nat} {fds : List CStr} (hroom : 0 < room) (hp : Printing p room) (hge : room ≤ fds.flatten.length)
    (hwrapped : (printAll fds p).1.wrapped = true → (config.cmdlineTrace pagesz size).1.wrapped = true)
    (hstop : (printAll fds p).2 = false → config.cmdlineTrace pagesz size = ((printAll fds p).1, none)) :
    CmdlineRight pagesz created config size ↔ Fits room fds := by
  constructor
  · intro h
    by_contra hnot
    have hnoWrap := h.noWrap
    rw [hwrapped (printAll_not_fits hroom hp hnot)] at hnoWrap
    cases hnoWrap
  · intro hfits
    obtain ⟨hfull, hnoWrap, hinside⟩ := printAll_of_ge hroom hp hfits hge
    have htrace := hstop hfull
    exact ⟨by rwa [htrace], by rwa [htrace], by rw [htrace]; exact nofun⟩

/-- All segments are printed, and `room` bytes remain for the other texts. -/
private theorem right_iff_of_few {pagesz : UInt64} {created : CStr} {config : Config} {size : UInt32} {p : Printer}
    {room : Nat} (hname : config.name = snprintf hostshmemNameLen created) (hp : Printing p room) (hroom : 0 < room)
    (hfirst : printAll ((printed 0 config.memsegCache).map CacheEntry.text) {} = (p, true))
    (hall : printed 0 config.memsegCache = config.segments)
    (htext : p.text ++ (fullLast pagesz config).flatten = config.fullCmdline pagesz) :
    CmdlineRight pagesz created config size ↔ Fits room (fullLast pagesz config) ∧
      ((config.fullCmdline pagesz).length < qemuCmdlineBufsize →
        size.toNat < (config.fullCmdline pagesz).length ∨
          (config.fullText pagesz).length < size.toNat ∧ config.NoGap ∧ created.length < hostshmemNameLen) := by
  have htrace := @cmdlineTrace_of_true pagesz config size p config.sharedMemSize hfirst (by rw [hall]; rfl)
  have htotal := hp.total
  have hlen : p.text.length + (fullLast pagesz config).flatten.length = (config.fullCmdline pagesz).length := by
    rw [← htext, List.length_append]
  have hcases := lastTexts_cases pagesz config
  rcases Nat.lt_or_ge (lastTexts pagesz config config.sharedMemSize).flatten.length room with hlt | hge
  · -- everything fits into the buffer
    have hwhole := hcases.resolve_right fun h => Nat.not_lt_of_le (h room (by omega)).2.1 hlt
    obtain ⟨p', hrest, hp', htext'⟩ := printAll_of_lt hp hlt
    rw [hwhole] at hlt htext'
    have hcmdline : p'.text = config.fullCmdline pagesz := htext'.trans htext
    have hshort : (config.fullCmdline pagesz).length < qemuCmdlineBufsize := by omega
    simp only [fits_of_lt hlt, hshort, true_and, forall_const]
    refine right_iff_of_lt hname hp' hcmdline ?_
    rw [htrace, hrest, hcmdline]
    simp only [true_and, ite_not]
    rfl
  · have hlong : ¬(config.fullCmdline pagesz).length < qemuCmdlineBufsize := by
      rcases hcases with heq | h
      · rw [heq] at hge
        omega
      · have := (h room (by omega)).2.2
        omega
    have hfits : Fits room (lastTexts pagesz config config.sharedMemSize) ↔ Fits room (fullLast pagesz config) := by
      rcases hcases with heq | h
      · rw [heq]
      · exact (h room (by omega)).1
    simp only [hlong, false_imp_iff, and_true, ← hfits]
    exact right_iff_of_ge hroom hp hge (fun hwrapped => by rwa [htrace]) fun hstop => by rw [htrace, hstop]; rfl

/-- The segments alone fill the buffer. -/
private theorem right_iff_of_many {pagesz : UInt64} {created : CStr} {config : Config} {size : UInt32}
    (hge : qemuCmdlineBufsize ≤ ((printed 0 config.memsegCache).map CacheEntry.text).flatten.length) :
    CmdlineRight pagesz created config size ↔
      Fits qemuCmdlineBufsize ((printed 0 config.memsegCache).map CacheEntry.text) :=
  right_iff_of_ge (by decide) printing_init hge cmdlineTrace_wrapped cmdlineTrace_of_false

/-! ### The other model -/

/-- One text in both models. -/
private theorem printFd_sim {p : Printer} {room : Nat} (hp : Printing p room) {fd : CStr}
    (h : (p.print fd).wrapped = false) :
    (∃ room', 0 < room' ∧ Printing (p.print fd) room' ∧ (p.print fd).remainingLen ≠ 0 ∧
      printFd p.text fd = .ok (p.print fd).text) ∨
    (p.print fd).remainingLen = 0 ∧ printFd p.text fd = .error .tooLong := by
  have htotal := hp.total
  rw [printFd, show qemuCmdlineBufsize - p.text.length = room by omega]
  rcases Nat.lt_trichotomy fd.length room with hlt | heq | hgt
  · obtain ⟨hp', htext⟩ := hp.print hlt
    have hpos := Nat.sub_pos_of_lt hlt
    exact Or.inl ⟨_, hpos, hp', remainingLen_ne_zero hp' hpos, by rw [if_pos hlt, htext]⟩
  · exact Or.inr ⟨(hp.print_full heq).1, by rw [if_neg (Nat.not_lt_of_le heq.ge), if_pos heq]⟩
  · exact absurd ((hp.print_long hgt).symm.trans h) (by decide)

private theorem printSegments_wrapped {p : Printer} (h : p.wrapped = true) (es : List CacheEntry) (iter : Nat)
    (shared : UInt64) : (Printer.printSegments es iter p shared).1.wrapped = true := by
  rw [printSegments_printAll]
  exact printAll_wrapped h _

private theorem printSegments_sim (es : List CacheEntry) (iter : Nat) {p : Printer} {room : Nat} (shared : UInt64)
    (hp : Printing p room) (hroom : 0 < room) (h : (Printer.printSegments es iter p shared).1.wrapped = false) :
    (∃ p' room' shared', 0 < room' ∧ Printing p' room' ∧
      Printer.printSegments es iter p shared = (p', some shared') ∧
      printSegments es iter p.text shared = .ok (p'.text, shared')) ∨
    (Printer.printSegments es iter p shared).2 = none ∧
      printSegments es iter p.text shared = .error .tooLong := by
  induction es generalizing iter p room shared with
  | nil => exact Or.inl ⟨p, room, shared, hroom, hp, rfl, rfl⟩
  | cons e es ih =>
    rw [Printer.printSegments] at h ⊢
    rw [printSegments]
    by_cases hcond : e.len ≠ 0 ∧ iter < hostshmemMaxEntries
    · simp only [if_pos hcond] at h ⊢
      have hfirst : (p.print (qemuCmdFdFmt e.filepath e.offset e.len)).wrapped = false := by
        rw [Bool.eq_false_iff]
        intro hwrapped
        split_ifs at h
        · exact absurd (hwrapped.symm.trans h) (by decide)
        · exact absurd ((printSegments_wrapped hwrapped _ _ _).symm.trans h) (by decide)
      rcases printFd_sim hp hfirst with ⟨room', hpos, hp', hne, hok⟩ | ⟨hzero, herror⟩
      · rw [if_neg hne] at h ⊢
        rw [hok]
        exact ih _ _ hp' hpos h
      · rw [if_pos hzero, herror]
        exact Or.inr ⟨rfl, rfl⟩
    · rw [if_neg hcond, if_neg hcond]
      exact Or.inl ⟨p, room, shared, hroom, hp, rfl, rfl⟩

/-- As long as `remaining_len` does not wrap around, the result is that of `Config.cmdlineGenerate`. -/
theorem cmdlineTrace_eq {pagesz : UInt64} {config : Config} {size : UInt32}
    (h : (config.cmdlineTrace pagesz size).1.wrapped = false) :
    (config.cmdlineTrace pagesz size).2 = (config.cmdlineGenerate pagesz size.toNat).toOption := by
  have hsegs : (Printer.printSegments config.memsegCache 0 {} 0).1.wrapped = false := by
    rw [printSegments_printAll, Bool.eq_false_iff]
    exact fun hwrapped => absurd ((cmdlineTrace_wrapped hwrapped).symm.trans h) (by decide)
  rcases printSegments_sim config.memsegCache 0 0 printing_init (by decide) hsegs with
    ⟨p, room, shared, hroom, hp, hnew, hold⟩ | ⟨hnew, hold⟩
  · rw [Config.cmdlineTrace, hnew] at h
    rw [Config.cmdlineTrace, hnew, Config.cmdlineGenerate, hold]
    simp only at h ⊢
    generalize qemuCmdFdFmt "/dev/zero".toList 0 _ = zero at h ⊢
    generalize qemuCmdFdFmt _ 0 (metadataSizeAligned pagesz) = last at h ⊢
    have hzero : (p.print zero).wrapped = false := by
      rw [Bool.eq_false_iff]
      intro hwrapped
      have hlast := print_wrapped hwrapped last
      split_ifs at h
      · exact absurd (hwrapped.symm.trans h) (by decide)
      all_goals exact absurd (hlast.symm.trans h) (by decide)
    rcases printFd_sim hp hzero with ⟨room₁, -, hp₁, hne₁, hok₁⟩ | ⟨hfull, herror⟩
    · simp only [if_neg hne₁, hok₁] at h ⊢
      have hlast : ((p.print zero).print last).wrapped = false := by
        split_ifs at h <;> exact h
      rcases printFd_sim hp₁ hlast with ⟨room₂, -, hp₂, hne₂, hok₂⟩ | ⟨hfull, herror⟩
      · simp only [if_neg hne₂, hok₂, hp₂.check size]
        split <;> rfl
      · simp only [if_pos hfull, herror]
        rfl
    · simp only [if_pos hfull, herror]
      rfl
  · have hpair : Printer.printSegments config.memsegCache 0 {} 0 =
        ((Printer.printSegments config.memsegCache 0 {} 0).1, none) := Prod.ext rfl hnew
    have hold' : printSegments config.memsegCache 0 [] 0 = .error .tooLong := hold
    rw [Config.cmdlineTrace, hpair, Config.cmdlineGenerate, hold']
    rfl

/-! ### When the line is right -/

/-- The function writes inside its buffer, does not let `remaining_len` wrap around, and gives the caller nothing but
the whole line, exactly when each text in turn is shorter than what remains or fills it, and, if they all are shorter, the
buffer of the caller is smaller than the text of the files, or it is larger than the text of the device, no segment stands
behind an empty entry and the name under which the config was created has less than 32 characters.  It then does what
`Config.cmdlineGenerate` does. -/
theorem cmdlineRight_iff (pagesz : UInt64) (created : CStr) (config : Config) (size : UInt32)
    (hname : config.name = snprintf hostshmemNameLen created) :
    (CmdlineRight pagesz created config size ↔
      Fits qemuCmdlineBufsize (config.fdTexts pagesz) ∧
      ((config.fullCmdline pagesz).length < qemuCmdlineBufsize →
        size.toNat < (config.fullCmdline pagesz).length ∨
          (config.fullText pagesz).length < size.toNat ∧ config.NoGap ∧ created.length < hostshmemNameLen)) ∧
    (CmdlineRight pagesz created config size →
      (config.cmdlineTrace pagesz size).2 = (config.cmdlineGenerate pagesz size.toNat).toOption) := by
  refine ⟨?_, fun h => cmdlineTrace_eq h.noWrap⟩
  have hprinted : printed 0 config.memsegCache = config.segments.take hostshmemMaxEntries := rfl
  have htexts : config.fdTexts pagesz = (printed 0 config.memsegCache).map CacheEntry.text ++
      ((config.segments.drop hostshmemMaxEntries).map CacheEntry.text ++ fullLast pagesz config) := by
    rw [fdTexts_eq, hprinted, ← List.append_assoc, ← List.map_append, List.take_append_drop]
  rcases Nat.lt_or_ge ((printed 0 config.memsegCache).map CacheEntry.text).flatten.length qemuCmdlineBufsize with hlt | hge
  · -- a text has at least 9 characters, so the loop prints all segments
    have hfew : config.segments.length ≤ hostshmemMaxEntries := by
      have hcount := length_flatten_texts (printed 0 config.memsegCache)
      rw [hprinted, List.length_take] at hcount
      rw [hprinted] at hlt
      simp only [qemuCmdlineBufsize, hostshmemMaxEntries] at hlt hcount ⊢
      omega
    rw [List.drop_of_length_le hfew, List.map_nil, List.nil_append] at htexts
    obtain ⟨p, hfirst, hp, htext⟩ := printAll_of_lt printing_init hlt
    rw [htexts, fits_append (by decide), right_iff_of_few hname hp (Nat.sub_pos_of_lt hlt) hfirst
      (hprinted.trans (List.take_of_length_le hfew))
      (by rw [htext, ← flatten_fdTexts, htexts, List.flatten_append]; rfl)]
    simp only [fits_of_lt hlt, hlt, true_and, forall_const]
  · have hlong : ¬(config.fullCmdline pagesz).length < qemuCmdlineBufsize := by
      rw [← flatten_fdTexts, htexts, List.flatten_append, List.length_append]
      omega
    rw [right_iff_of_many hge, htexts, fits_append (by decide)]
    simp only [Nat.not_lt_of_le hge, hlong, false_imp_iff, and_true]

/-- A config with `n` segments in files with long names. -/
def longConfig (n : Nat) : Config where
  name := "HSM".toList
  entry := []
  hpEntries := []
  memsegCache := List.replicate n ⟨"/mnt/huge/rtemap_00000000000000".toList, 0, 0x200000⟩

/-- One segment in a buffer that is large enough is printed whole. -/
theorem cmdlineRight_longConfig :
    CmdlineRight 0x200000 "HSM".toList (longConfig 1) 4096 ∧
      ((longConfig 1).cmdlineTrace 0x200000 4096).2 = ((longConfig 1).cmdlineGenerate 0x200000 4096).toOption := by
  obtain ⟨hiff, heq⟩ := cmdlineRight_iff 0x200000 "HSM".toList (longConfig 1) 4096 (by decide)
  have hright : CmdlineRight 0x200000 "HSM".toList (longConfig 1) 4096 := by
    refine hiff.2 ⟨by decide +kernel, fun _ => Or.inr ⟨by decide +kernel, ?_, by decide⟩⟩
    exact List.pairwise_singleton _ _
  exact ⟨hright, heq hright⟩

/-- A config with a segment behind an empty entry, as it is after memzones on the pages 0, 2, 4, 1 and 3 of a file. -/
def gapConfig : Config where
  name := "HSM".toList
  entry := []
  hpEntries := []
  memsegCache := [⟨"/mnt/huge/rtemap_0".toList, 0, 0xa00000⟩, {}, ⟨"/mnt/huge/rtemap_0".toList, 0x800000, 0x200000⟩]

/-- The config that is created under a name. -/
def namedConfig (created : CStr) : Config where
  name := snprintf hostshmemNameLen created
  entry := []
  hpEntries := []
  memsegCache := []

/-- With a buffer of 120 bytes the function returns 0 and the line of 146 characters is cut off; with 24 segments
`remaining_len` wraps around and the last segment is written behind the working buffer.  A segment behind a gap is left
out, and for a name of 32 characters the line names another file than the one that was created. -/
theorem cmdline_cut :
    ¬CmdlineRight 0x200000 "HSM".toList (longConfig 1) 120 ∧
    ¬CmdlineRight 0x200000 "HSM".toList (longConfig 24) 4096 ∧
    ¬CmdlineRight 0x200000 "HSM".toList gapConfig 4096 ∧
    ¬CmdlineRight 0x200000 (List.replicate 32 'v') (namedConfig (List.replicate 32 'v')) 4096 := by
  have hline : ∀ {created : CStr} {config : Config} {size : UInt32} (text : CStr),
      (config.cmdlineTrace 0x200000 size).2 = some text → text ≠ config.wholeText 0x200000 created →
      ¬CmdlineRight 0x200000 created config size := fun text hsome hne h => hne (h.complete text hsome).1
  refine ⟨hline (((longConfig 1).fullText 0x200000).take 119) (by decide +kernel) (by decide +kernel), fun h => ?_,
    hline (gapConfig.fullText 0x200000) (by decide +kernel) (by decide +kernel),
    hline ((namedConfig (List.replicate 32 'v')).fullText 0x200000) (by decide +kernel) (by decide +kernel)⟩
  have hwrapped : ((longConfig 24).cmdlineTrace 0x200000 4096).1.wrapped = true := by decide +kernel
  exact absurd (hwrapped.symm.trans h.noWrap) (by decide)

end SoftPatchPanel.Hostshmem

import SoftPatchPanel.Hostshmem.Metadata

/-!
# The command line for QEMU

`rte_hostshmem_metadata_cmdline_generate` prints the memseg cache of a config as the files of a device: the segments, a
stretch of `/dev/zero` that fills the size up to a power of two, and the metadata.  When the whole text fits into the
buffers it is the header around the fields of the files, joined by colons (`cmdlineGenerate_eq`).
-/

namespace SoftPatchPanel.Hostshmem

open Lib

/-- `HOSTSHMEM_QEMU_CMDLINE_BUFSIZE`. -/
def qemuCmdlineBufsize : Nat := 1024

/-- `PATH_MAX`. -/
def pathMax : Nat := 4096

/-- `sizeof(struct rte_hostshmem_metadata)`: the magic number, a name of 32 characters and four bytes of padding, then
128 entries of a packed memzone of 84 bytes, four bytes of padding and the offset. -/
def metadataSize : UInt64 := 40 + 128 * (84 + 4 + 8)

/-- `METADATA_SIZE_ALIGNED`. -/
def metadataSizeAligned (pagesz : UInt64) : UInt64 := alignCeil metadataSize pagesz

/-- `HOSTSHMEM_CONFIG_FILE_FMT`. -/
def configFileFmt (name : CStr) : CStr := "/var/run/.dpdk_hostshmem_metadata_".toList ++ name

/-- `HOSTSHMEM_QEMU_CMD_FD_FMT`. -/
def qemuCmdFdFmt (path : CStr) (offset len : UInt64) : CStr :=
  ":".toList ++ path ++ ":0x".toList ++ formatX offset.toNat ++ ":0x".toList ++ formatX len.toNat

/-- `HOSTSHMEM_QEMU_CMD_LINE_HEADER_FMT`. -/
def qemuCmdLineHeaderFmt (size : UInt64) (cmdline : CStr) : CStr :=
  "-device hostshmem,size=".toList ++ formatU size.toNat ++ "M,shm=fd".toList ++ cmdline

/-- The ways in which `rte_hostshmem_metadata_cmdline_generate` fails.  `overrun` is no error of the source: the text is
longer than what remains of the buffer, `remaining_len` wraps around and the next text is written behind the buffer. -/
inductive CmdlineFailure where
  | nullArgument
  | configNotFound
  | tooLong
  | overrun
  | bufferTooShort
deriving DecidableEq

/-- One `snprintf` into the rest of the buffer, with the new `remaining_len`. -/
def printFd (cmdline fd : CStr) : Except CmdlineFailure CStr :=
  let remainingLen := qemuCmdlineBufsize - cmdline.length
  if fd.length < remainingLen then .ok (cmdline ++ fd)
  else if fd.length = remainingLen then .error .tooLong
  else .error .overrun

/-- The loop over the cache; also adds up `shared_mem_size`. -/
def printSegments : List CacheEntry → Nat → CStr → UInt64 → Except CmdlineFailure (CStr × UInt64)
  | [], _, cmdline, shared => .ok (cmdline, shared)
  | e :: es, iter, cmdline, shared =>
    if e.len ≠ 0 ∧ iter < hostshmemMaxEntries then
      match printFd cmdline (qemuCmdFdFmt e.filepath e.offset e.len) with
      | .error f => .error f
      | .ok cmdline => printSegments es (iter + 1) cmdline (shared + e.len)
    else .ok (cmdline, shared)

/-- The part of `rte_hostshmem_metadata_cmdline_generate` under the lock of the config.  When the last file does not fit,
the wrapped `remaining_len` makes the comparison with `size` fail. -/
def Config.cmdlineGenerate (pagesz : UInt64) (config : Config) (size : Nat) : Except CmdlineFailure CStr :=
  let cfgFilePath := snprintf pathMax (configFileFmt config.name)
  match printSegments config.memsegCache 0 [] 0 with
  | .error f => .error f
  | .ok (cmdline, shared) =>
    let total := align64pow2 (shared + metadataSizeAligned pagesz)
    let zero := total - shared - metadataSizeAligned pagesz
    match printFd cmdline (qemuCmdFdFmt "/dev/zero".toList 0 zero) with
    | .error f => .error f
    | .ok cmdline =>
      match printFd cmdline (qemuCmdFdFmt cfgFilePath 0 (metadataSizeAligned pagesz)) with
      | .error .overrun => .error .bufferTooShort
      | .error f => .error f
      | .ok cmdline =>
        if size < cmdline.length then .error .bufferTooShort
        else .ok (snprintf size (qemuCmdLineHeaderFmt (total >>> 20) cmdline))

/-- `rte_hostshmem_metadata_cmdline_generate`, with the size of the buffer and `none` for NULL. -/
def cmdlineGenerate (pagesz : UInt64) (p : Process) (buffer : Option Nat) (name : Option CStr) :
    Except CmdlineFailure CStr :=
  match buffer, name with
  | none, _ | _, none => .error .nullArgument
  | some size, some name =>
    match getConfigByName name p.configs with
    | none => .error .configNotFound
    | some slot =>
      match p.configs[slot]? with
      | none => .error .configNotFound
      | some config => config.cmdlineGenerate pagesz size

/-! ### The whole text -/

/-- The segments that are printed: the cache up to its first empty entry. -/
def Config.segments (config : Config) : List CacheEntry := config.memsegCache.takeWhile (fun e => e.len ≠ 0)

/-- `shared_mem_size`. -/
def Config.sharedMemSize (config : Config) : UInt64 := config.segments.foldr (fun e size => e.len + size) 0

/-- `total_size`. -/
def Config.totalSize (pagesz : UInt64) (config : Config) : UInt64 :=
  align64pow2 (config.sharedMemSize + metadataSizeAligned pagesz)

/-- The files of the device in their order. -/
def Config.deviceFiles (pagesz : UInt64) (config : Config) : List CacheEntry :=
  config.segments ++
    [⟨"/dev/zero".toList, 0, config.totalSize pagesz - config.sharedMemSize - metadataSizeAligned pagesz⟩,
      ⟨configFileFmt config.name, 0, metadataSizeAligned pagesz⟩]

/-- The fields of a file. -/
def CacheEntry.fields (e : CacheEntry) : List CStr :=
  [e.filepath, "0x".toList ++ formatX e.offset.toNat, "0x".toList ++ formatX e.len.toNat]

/-- The text of the files. -/
def Config.fullCmdline (pagesz : UInt64) (config : Config) : CStr :=
  separated ':' ((config.deviceFiles pagesz).flatMap CacheEntry.fields)

/-- The text of the device. -/
def Config.fullText (pagesz : UInt64) (config : Config) : CStr :=
  qemuCmdLineHeaderFmt (config.totalSize pagesz >>> 20) (config.fullCmdline pagesz)

theorem qemuCmdFdFmt_eq (e : CacheEntry) : qemuCmdFdFmt e.filepath e.offset e.len = separated ':' e.fields := by
  simp [qemuCmdFdFmt, CacheEntry.fields]

private theorem printFd_eq {cmdline fd : CStr} (h : (cmdline ++ fd).length < qemuCmdlineBufsize) :
    printFd cmdline fd = .ok (cmdline ++ fd) := by
  rw [List.length_append] at h
  exact if_pos (by omega)

private theorem printSegments_eq (es : List CacheEntry) (iter : Nat) (cmdline : CStr) (shared : UInt64)
    (hiter : iter + (es.takeWhile (fun e => e.len ≠ 0)).length ≤ hostshmemMaxEntries)
    (hfits : (cmdline ++ separated ':' ((es.takeWhile (fun e => e.len ≠ 0)).flatMap CacheEntry.fields)).length <
      qemuCmdlineBufsize) :
    printSegments es iter cmdline shared =
      .ok (cmdline ++ separated ':' ((es.takeWhile (fun e => e.len ≠ 0)).flatMap CacheEntry.fields),
        shared + (es.takeWhile (fun e => e.len ≠ 0)).foldr (fun e size => e.len + size) 0) := by
  induction es generalizing iter cmdline shared with
  | nil => simp [printSegments]
  | cons e es ih =>
    rw [printSegments]
    by_cases hlen : e.len = 0
    · rw [if_neg (by simp [hlen]), List.takeWhile_cons_of_neg (by simpa using hlen)]
      simp
    · rw [List.takeWhile_cons_of_pos (by simpa using hlen)] at hiter hfits ⊢
      rw [List.flatMap_cons, separated_append, ← List.append_assoc] at hfits ⊢
      rw [List.length_cons] at hiter
      have hfd : (cmdline ++ separated ':' e.fields).length < qemuCmdlineBufsize := by
        rw [List.length_append] at hfits
        omega
      rw [if_pos ⟨hlen, by omega⟩, qemuCmdFdFmt_eq, printFd_eq hfd]
      simp only
      rw [ih _ _ _ (by omega) hfits, List.foldr_cons, UInt64.add_assoc]

/-- When the text of the files fits into the buffer of the function and the text of the device into that of the caller,
it is printed whole. -/
theorem cmdlineGenerate_eq {pagesz : UInt64} {config : Config} {size : Nat}
    (hsegs : config.segments.length ≤ hostshmemMaxEntries)
    (hcmdline : (config.fullCmdline pagesz).length < qemuCmdlineBufsize)
    (htext : (config.fullText pagesz).length < size) :
    config.cmdlineGenerate pagesz size = .ok (config.fullText pagesz) := by
  have hfull : config.fullCmdline pagesz =
      separated ':' (config.segments.flatMap CacheEntry.fields) ++
        (qemuCmdFdFmt "/dev/zero".toList 0
            (config.totalSize pagesz - config.sharedMemSize - metadataSizeAligned pagesz) ++
          qemuCmdFdFmt (configFileFmt config.name) 0 (metadataSizeAligned pagesz)) := by
    rw [Config.fullCmdline, Config.deviceFiles, List.flatMap_append, separated_append, List.flatMap_cons,
      List.flatMap_singleton, separated_append, ← qemuCmdFdFmt_eq, ← qemuCmdFdFmt_eq]
  rw [← List.append_assoc] at hfull
  have hlength := hcmdline
  rw [hfull, List.length_append, List.length_append] at hlength
  have hpath : snprintf pathMax (configFileFmt config.name) = configFileFmt config.name := by
    refine List.take_of_length_le ?_
    have : (configFileFmt config.name).length ≤
        (qemuCmdFdFmt (configFileFmt config.name) 0 (metadataSizeAligned pagesz)).length := by
      simp [qemuCmdFdFmt]
      omega
    unfold pathMax
    unfold qemuCmdlineBufsize at hlength
    omega
  have hprint : printSegments config.memsegCache 0 [] 0 =
      .ok (separated ':' (config.segments.flatMap CacheEntry.fields), config.sharedMemSize) := by
    have hfits : (separated ':' (config.segments.flatMap CacheEntry.fields)).length < qemuCmdlineBufsize := by omega
    have := printSegments_eq config.memsegCache 0 [] 0
      (by rw [Nat.zero_add]; exact hsegs) (by rw [List.nil_append]; exact hfits)
    rwa [List.nil_append, UInt64.zero_add] at this
  unfold Config.cmdlineGenerate
  simp only
  rw [hpath, hprint]
  simp only
  rw [← Config.totalSize, printFd_eq (by rw [List.length_append]; omega)]
  simp only
  rw [printFd_eq (by rw [← hfull]; exact hcmdline), ← hfull]
  have hsize : (config.fullCmdline pagesz).length ≤ (config.fullText pagesz).length := by
    unfold Config.fullText qemuCmdLineHeaderFmt
    simp only [List.length_append]
    exact Nat.le_add_left _ _
  simp only
  rw [if_neg (by omega), ← Config.fullText, snprintf, List.take_of_length_le (by omega)]

end SoftPatchPanel.Hostshmem

import SoftPatchPanel.Hostshmem.Cmdline
import SoftPatchPanel.Lib.Strtoull
import Mathlib.Algebra.Order.BigOperators.Group.List

/-!
# The ivshmem device of QEMU

`ivshmem_get_size` and the part of `pci_ivshmem_init` that takes the list of files apart, from `hw/misc/ivshmem.c`.
From the values of the options `size` and `shm` they get back the files that the host shared memory library has printed,
and a device that these files fill (`decode_cmdline`).
-/

namespace SoftPatchPanel.Qemu

open Lib
open Hostshmem

/-- `IVSHMEM_MAX_FILES`. -/
def ivshmemMaxFiles : Nat := 256

/-- `FD_PREFIX`. -/
def fdPrefix : CStr := "fd:".toList

/-- `IVShmemFile`, with the name of the open file for its descriptor. -/
structure IVShmemFile where
  fd : CStr := []
  offset : UInt64 := 0
  size : UInt64 := 0
deriving DecidableEq

/-- The reasons for QEMU to exit. -/
inductive IvshmemFailure where
  | invalidRamSize
  | notPowerOfTwo
  | tooManyFiles
  | cannotOpen
  | invalidParameters
deriving DecidableEq

/-- `is_power_of_two`. -/
def isPowerOfTwo (x : UInt64) : Bool := x &&& (x - 1) = 0

/-- `ivshmem_get_size`. -/
def ivshmemGetSize (sizearg : CStr) : Except IvshmemFailure UInt64 :=
  let (value, ptr) := strtoull 10 sizearg
  let scaled := match ptr with
    | [] | 'M' :: _ | 'm' :: _ => some (value <<< 20)
    | 'G' :: _ | 'g' :: _ => some (value <<< 30)
    | _ => none
  match scaled with
  | none => .error .invalidRamSize
  | some value => if isPowerOfTwo value then .ok value else .error .notPowerOfTwo

/-- The variables of the loop over the tokens. -/
structure FdState where
  f : List IVShmemFile := List.replicate ivshmemMaxFiles {}
  fIndex : Nat := 0
  tokenN : Int := -1

/-- The file that the loop is at. -/
def FdState.file (st : FdState) : IVShmemFile := st.f.getD st.fIndex {}

/-- The loop body for one token.  `fileSize` is `open` with `get_file_size` after it. -/
def FdState.token (fileSize : CStr → Option UInt64) (st : FdState) (tok : CStr) : Except IvshmemFailure FdState :=
  if st.fIndex = ivshmemMaxFiles then .error .tooManyFiles
  else if st.tokenN = -1 then .ok { st with tokenN := st.tokenN + 1 }
  else if st.tokenN % 3 = 0 then
    match fileSize tok with
    | none => .error .cannotOpen
    | some size =>
      .ok { st with f := st.f.set st.fIndex { st.file with fd := tok, size := size }, tokenN := st.tokenN + 1 }
  else if st.tokenN % 3 = 1 then
    .ok { st with f := st.f.set st.fIndex { st.file with offset := (strtoull 16 tok).1 }, tokenN := st.tokenN + 1 }
  else
    .ok { f := st.f.set st.fIndex { st.file with size := (strtoull 16 tok).1 }, fIndex := st.fIndex + 1,
          tokenN := st.tokenN + 1 }

/-- The loop over the tokens. -/
def FdState.tokens (fileSize : CStr → Option UInt64) : FdState → List CStr → Except IvshmemFailure FdState
  | st, [] => .ok st
  | st, tok :: toks =>
    match st.token fileSize tok with
    | .error f => .error f
    | .ok st => st.tokens fileSize toks

/-- What `pci_ivshmem_init` does with a value of `shm` that starts with `FD_PREFIX`: the first `f_index` files. -/
def fdFiles (fileSize : CStr → Option UInt64) (shmobj : CStr) : Except IvshmemFailure (List IVShmemFile) :=
  let nCols := shmobj.count ':'
  match FdState.tokens fileSize {} (strtok ':' shmobj) with
  | .error f => .error f
  | .ok st =>
    if st.tokenN ≠ nCols ∨ ivshmemMaxFiles * 3 < nCols then .error .invalidParameters else .ok (st.f.take st.fIndex)

/-- The value of an option in the text of a device.  The name in front of the options is not looked at: the library
prints `hostshmem`, and the device is called `ivshmem`. -/
def optionValue (key text : CStr) : Option CStr :=
  ((text.splitOn ',').find? (fun option => (key ++ "=".toList).isPrefixOf option)).map
    (fun option => option.drop (key.length + 1))

/-! ### The files -/

/-- The file that an entry of the cache describes. -/
def ivshmemFile (e : CacheEntry) : IVShmemFile := ⟨e.filepath, e.offset, e.len⟩

private theorem strtoull_hexField (n : UInt64) : (strtoull 16 ("0x".toList ++ formatX n.toNat)).1 = n := by
  have := strtoull_formatX n.toNat_lt [] (by simp)
  rw [List.append_nil] at this
  rw [this, UInt64.ofNat_toNat]

/-- The state after the tokens of a file. -/
def FdState.add (st : FdState) (file : IVShmemFile) : FdState :=
  { f := st.f.set st.fIndex file, fIndex := st.fIndex + 1, tokenN := st.tokenN + 3 }

/-- Three tokens fill in the place of a file. -/
theorem FdState.tokens_three {fileSize : CStr → Option UInt64} {st : FdState} {path offset size : CStr}
    {toks : List CStr} (hlen : st.f.length = ivshmemMaxFiles) (hindex : st.fIndex < ivshmemMaxFiles)
    (htoken : st.tokenN = 3 * st.fIndex) (hopen : (fileSize path).isSome) :
    st.tokens fileSize (path :: offset :: size :: toks) =
      (st.add ⟨path, (strtoull 16 offset).1, (strtoull 16 size).1⟩).tokens fileSize toks := by
  obtain ⟨trueSize, hsize⟩ := Option.isSome_iff_exists.1 hopen
  have hget : ∀ x : IVShmemFile, (st.f.set st.fIndex x).getD st.fIndex {} = x := by
    intro x
    rw [List.getD_eq_getElem?_getD, List.getElem?_set_self (by omega), Option.getD_some]
  simp only [FdState.tokens]
  -- the name
  rw [FdState.token, if_neg (by omega), if_neg (by omega), if_pos (by omega), hsize]
  simp only
  -- the offset
  rw [FdState.token, if_neg (by simpa using hindex.ne), if_neg (by simp only; omega), if_neg (by simp only; omega),
    if_pos (by simp only; omega)]
  simp only [FdState.file, hget]
  -- the size
  rw [FdState.token, if_neg (by simpa using hindex.ne), if_neg (by simp only; omega), if_neg (by simp only; omega),
    if_neg (by simp only; omega)]
  simp only [FdState.file, List.set_set, hget]
  have htokens : st.tokenN + 1 + 1 + 1 = st.tokenN + 3 := by omega
  rw [htokens]
  rfl

/-- The three tokens of an entry of the cache. -/
private theorem FdState.tokens_fields {fileSize : CStr → Option UInt64} {st : FdState} {e : CacheEntry}
    {toks : List CStr}
    (hlen : st.f.length = ivshmemMaxFiles) (hindex : st.fIndex < ivshmemMaxFiles) (htoken : st.tokenN = 3 * st.fIndex)
    (hopen : (fileSize e.filepath).isSome) :
    st.tokens fileSize (e.fields ++ toks) = (st.add (ivshmemFile e)).tokens fileSize toks := by
  unfold CacheEntry.fields ivshmemFile
  simp only [List.cons_append, List.nil_append]
  rw [FdState.tokens_three hlen hindex htoken hopen]
  simp only [strtoull_hexField]

/-- The tokens of a list of files. -/
private theorem FdState.tokens_files {fileSize : CStr → Option UInt64} (st : FdState) {es : List CacheEntry}
    (hlen : st.f.length = ivshmemMaxFiles) (hindex : st.fIndex + es.length ≤ ivshmemMaxFiles)
    (htoken : st.tokenN = 3 * st.fIndex) (hopen : ∀ e ∈ es, (fileSize e.filepath).isSome) :
    ∃ st', st.tokens fileSize (es.flatMap CacheEntry.fields) = .ok st' ∧ st'.fIndex = st.fIndex + es.length ∧
      st'.tokenN = 3 * st'.fIndex ∧ st'.f.take st'.fIndex = st.f.take st.fIndex ++ es.map ivshmemFile := by
  induction es generalizing st with
  | nil => exact ⟨st, rfl, rfl, htoken, by simp⟩
  | cons e es ih =>
    rw [List.length_cons] at hindex
    rw [List.forall_mem_cons] at hopen
    rw [List.flatMap_cons, FdState.tokens_fields hlen (by omega) htoken hopen.1]
    obtain ⟨st', hrun, h1, h2, h3⟩ := ih (st.add (ivshmemFile e)) (by simpa [FdState.add] using hlen)
      (by simp only [FdState.add]; omega) (by simp only [FdState.add]; push_cast; omega) hopen.2
    refine ⟨st', hrun, ?_, h2, ?_⟩
    · rw [h1, List.length_cons]
      simp only [FdState.add]
      omega
    · rw [h3]
      simp only [FdState.add]
      rw [List.take_add_one, List.take_set_of_le (Nat.le_refl _), List.getElem?_set_self (by omega), List.map_cons]
      simp

private theorem forall_mem_fields {P : CStr → Prop} {es : List CacheEntry} (hpath : ∀ e ∈ es, P e.filepath)
    (hhex : ∀ n, P ("0x".toList ++ formatX n)) : ∀ s ∈ es.flatMap CacheEntry.fields, P s := by
  intro s hs
  obtain ⟨e, he, hs⟩ := List.mem_flatMap.1 hs
  simp only [CacheEntry.fields, List.mem_cons, List.not_mem_nil, or_false] at hs
  rcases hs with rfl | rfl | rfl
  · exact hpath e he
  · exact hhex _
  · exact hhex _

private theorem not_mem_hexField {c : Char} (hc : ∀ d < 16, Nat.digitChar d ≠ c) (h0 : c ≠ '0') (hx : c ≠ 'x')
    (n : Nat) :
    c ∉ "0x".toList ++ formatX n := by
  intro h
  rcases List.mem_append.1 h with h | h
  · simp [h0, hx] at h
  · exact forall_mem_toDigits (P := fun d => d ≠ c) (by decide) hc n c h rfl

theorem fdFiles_eq {fileSize : CStr → Option UInt64} {es : List CacheEntry} (hmax : es.length ≤ ivshmemMaxFiles)
    (hpaths : ∀ e ∈ es, e.filepath ≠ [] ∧ ':' ∉ e.filepath) (hopen : ∀ e ∈ es, (fileSize e.filepath).isSome) :
    fdFiles fileSize ("fd".toList ++ separated ':' (es.flatMap CacheEntry.fields)) = .ok (es.map ivshmemFile) := by
  have hfields : ∀ s ∈ es.flatMap CacheEntry.fields, s ≠ [] ∧ ':' ∉ s :=
    forall_mem_fields hpaths (fun n => ⟨by simp, not_mem_hexField (by decide) (by decide) (by decide) n⟩)
  have hlen : (es.flatMap CacheEntry.fields).length = 3 * es.length := by
    simp [List.length_flatMap, CacheEntry.fields, List.map_const', Nat.mul_comm]
  have hcount : ("fd".toList ++ separated ':' (es.flatMap CacheEntry.fields)).count ':' = 3 * es.length := by
    rw [List.count_append, count_separated (fun s hs => (hfields s hs).2), hlen]
    simp
  have htokens : strtok ':' ("fd".toList ++ separated ':' (es.flatMap CacheEntry.fields)) =
      "fd".toList :: es.flatMap CacheEntry.fields :=
    strtok_separated (List.forall_mem_cons.2 ⟨by decide, hfields⟩)
  obtain ⟨st, hrun, hindex, hn, htake⟩ := FdState.tokens_files { tokenN := 0 } (by simp)
    (by simpa using hmax) (by simp) hopen
  simp only [Nat.zero_add] at hindex
  unfold fdFiles
  simp only
  rw [htokens, hcount]
  have hfirst : FdState.tokens fileSize {} ("fd".toList :: es.flatMap CacheEntry.fields) = .ok st := by
    rw [FdState.tokens, FdState.token, if_neg (by decide), if_pos rfl]
    exact hrun
  rw [hfirst]
  simp only
  rw [if_neg (by push_cast; unfold ivshmemMaxFiles at *; omega), htake]
  simp

/-! ### The size -/

/-- A power of two of at least 1 MB is read back from its number of megabytes. -/
theorem ivshmemGetSize_eq {n : UInt64} {k : Nat} (hn : n.toNat = 2 ^ k) (hk : 20 ≤ k) :
    ivshmemGetSize (formatU (n >>> 20).toNat ++ "M".toList) = .ok n := by
  have hlt := n.toNat_lt
  have hshift : (n >>> 20) <<< 20 = n := by
    have hmb : 2 ^ k = 2 ^ (k - 20) * 2 ^ 20 := by rw [← Nat.pow_add, Nat.sub_add_cancel hk]
    rw [← UInt64.toNat_inj, UInt64.toNat_shiftLeft, UInt64.toNat_shiftRight]
    have h20 : (20 : UInt64).toNat % 64 = 20 := rfl
    rw [h20, Nat.shiftRight_eq_div_pow, Nat.shiftLeft_eq, hn, hmb, Nat.mul_div_cancel _ (by decide), ← hmb, ← hn,
      Nat.mod_eq_of_lt hlt]
  have hpow : isPowerOfTwo n := by
    refine decide_eq_true ?_
    have hsub : (n - 1).toNat = 2 ^ k - 1 := by
      rw [UInt64.toNat_sub_of_le _ _ (by rw [UInt64.le_iff_toNat_le, hn]; exact Nat.one_le_two_pow), hn]
      rfl
    rw [← UInt64.toNat_inj, UInt64.toNat_and, hsub, Nat.and_two_pow_sub_one_eq_mod, hn, Nat.mod_self]
    rfl
  have hsuffix : ∀ c ∈ "M".toList.head?, 10 ≤ digitVal c := by
    intro c hc
    cases hc
    decide
  unfold ivshmemGetSize
  rw [strtoull_formatU (UInt64.toNat_lt _) hsuffix, UInt64.ofNat_toNat]
  show (if isPowerOfTwo (n >>> 20 <<< 20) then Except.ok (n >>> 20 <<< 20) else _) = _
  rw [hshift, if_pos hpow]

/-! ### What the library prints -/

/-- A non-empty name without the separators of the text. -/
def Plain (s : CStr) : Prop := s ≠ [] ∧ ':' ∉ s ∧ ',' ∉ s

instance (s : CStr) : Decidable (Plain s) := inferInstanceAs (Decidable (_ ∧ _ ∧ _))

private theorem plain_configFileFmt {name : CStr} (h : Plain name) : Plain (configFileFmt name) := by
  have hcolon : ':' ∉ "/var/run/.dpdk_hostshmem_metadata_".toList := by decide
  have hcomma : ',' ∉ "/var/run/.dpdk_hostshmem_metadata_".toList := by decide
  unfold configFileFmt
  refine ⟨fun hnil => h.1 (List.append_eq_nil_iff.1 hnil).2, fun hmem => ?_, fun hmem => ?_⟩
  · exact (List.mem_append.1 hmem).elim hcolon h.2.1
  · exact (List.mem_append.1 hmem).elim hcomma h.2.2

section

variable {pagesz : UInt64} {config : Config}

theorem metadataSizeAligned_le (hpage : IsPow2 pagesz) (hpage' : pagesz.toNat ≤ 2 ^ 20) :
    (metadataSizeAligned pagesz).toNat ≤ 2 ^ 20 := by
  have hpos := hpage.pos
  have hsize : metadataSize.toNat = 12328 := by decide
  rw [metadataSizeAligned, toNat_alignCeil hpage (by rw [hsize]; omega), hsize]
  obtain ⟨k, hk⟩ := hpage
  -- 2 ^ 20 is a multiple of the page size that is not below the size
  refine le_of_dvd_of_lt_add (Nat.dvd_mul_left _ _) ?_ (Nat.lt_of_le_of_lt (Nat.div_mul_le_self _ _) (by omega))
  rw [hk] at hpage' ⊢
  exact Nat.pow_dvd_pow 2 ((Nat.pow_le_pow_iff_right (by decide)).1 hpage')

private theorem toNat_foldr_len {es : List CacheEntry} (h : (es.map (fun e => e.len.toNat)).sum < 2 ^ 64) :
    (es.foldr (fun (e : CacheEntry) size => e.len + size) 0).toNat = (es.map (fun e => e.len.toNat)).sum := by
  induction es with
  | nil => rfl
  | cons e es ih =>
    rw [List.map_cons, List.sum_cons] at h ⊢
    rw [List.foldr_cons, UInt64.toNat_add, ih (by omega), Nat.mod_eq_of_lt h]

/-- The size of the device is a power of two of at least 2 MB, and the files fill it. -/
theorem totalSize_eq (hpage : IsPow2 pagesz) (hpage' : pagesz.toNat ≤ 2 ^ 20)
    (hbig : ∃ e ∈ config.segments, 2 ^ 21 ≤ e.len.toNat)
    (htotal : (config.segments.map (fun e => e.len.toNat)).sum < 2 ^ 63 - 2 ^ 20) :
    ∃ k, (config.totalSize pagesz).toNat = 2 ^ k ∧ 20 ≤ k ∧
      ((config.deviceFiles pagesz).map (fun e => e.len.toNat)).sum = (config.totalSize pagesz).toNat := by
  have hmeta := metadataSizeAligned_le hpage hpage'
  have hshared : config.sharedMemSize.toNat = (config.segments.map (fun e => e.len.toNat)).sum :=
    toNat_foldr_len (htotal.trans (by decide))
  have hle : 2 ^ 21 ≤ config.sharedMemSize.toNat := by
    obtain ⟨e, he, hlen⟩ := hbig
    rw [hshared]
    exact hlen.trans (List.le_sum_of_mem (List.mem_map_of_mem (f := fun e : CacheEntry => e.len.toNat) he))
  have hsum : (config.sharedMemSize + metadataSizeAligned pagesz).toNat =
      config.sharedMemSize.toNat + (metadataSizeAligned pagesz).toNat := by
    rw [UInt64.toNat_add, Nat.mod_eq_of_lt (by omega)]
  obtain ⟨h1, h2, h3⟩ := toNat_align64pow2 (v := config.sharedMemSize + metadataSizeAligned pagesz) (by omega) (by omega)
  rw [hsum] at h1 h2 h3
  generalize Nat.size _ = k at h1 h2 h3
  refine ⟨k, h1, ?_, ?_⟩
  · by_contra hk
    have := Nat.pow_le_pow_right (show 0 < 2 by decide) (show k ≤ 20 by omega)
    omega
  · have hz1 : (config.totalSize pagesz - config.sharedMemSize).toNat = 2 ^ k - config.sharedMemSize.toNat := by
      rw [UInt64.toNat_sub_of_le _ _ (by rw [UInt64.le_iff_toNat_le, Config.totalSize, h1]; omega), Config.totalSize, h1]
    have hz2 : (config.totalSize pagesz - config.sharedMemSize - metadataSizeAligned pagesz).toNat =
        2 ^ k - config.sharedMemSize.toNat - (metadataSizeAligned pagesz).toNat := by
      rw [UInt64.toNat_sub_of_le _ _ (by rw [UInt64.le_iff_toNat_le, hz1]; omega), hz1]
    rw [Config.deviceFiles, List.map_append, List.sum_append, ← hshared, List.map_cons, List.map_cons, List.map_nil,
      List.sum_cons, List.sum_cons, List.sum_nil, hz2, Config.totalSize, h1]
    simp only
    omega

theorem plain_deviceFiles (hpaths : ∀ e ∈ config.segments, Plain e.filepath) (hname : Plain config.name) :
    ∀ e ∈ config.deviceFiles pagesz, Plain e.filepath := by
  intro e he
  simp only [Config.deviceFiles, List.mem_append, List.mem_cons, List.not_mem_nil, or_false] at he
  rcases he with he | rfl | rfl
  · exact hpaths e he
  · exact (by decide : Plain "/dev/zero".toList)
  · exact plain_configFileFmt hname

/-- The options between the commas of the text. -/
theorem splitOn_fullText (hplain : ∀ e ∈ config.deviceFiles pagesz, Plain e.filepath) :
    (config.fullText pagesz).splitOn ',' =
      ["-device hostshmem".toList, "size=".toList ++ (formatU (config.totalSize pagesz >>> 20).toNat ++ "M".toList),
        "shm=".toList ++ ("fd".toList ++ config.fullCmdline pagesz)] := by
  have hsplit : config.fullText pagesz = "-device hostshmem".toList ++ separated ','
      ["size=".toList ++ (formatU (config.totalSize pagesz >>> 20).toNat ++ "M".toList),
        "shm=".toList ++ ("fd".toList ++ config.fullCmdline pagesz)] := by
    have h1 : "-device hostshmem,size=".toList = "-device hostshmem".toList ++ ',' :: "size=".toList := by decide
    have h2 : "M,shm=fd".toList = "M".toList ++ ',' :: ("shm=".toList ++ "fd".toList) := by decide
    unfold Config.fullText qemuCmdLineHeaderFmt
    simp only [h1, h2, separated_cons, separated_nil, List.append_assoc, List.cons_append, List.append_nil]
  have hsize : ',' ∉ formatU (config.totalSize pagesz >>> 20).toNat := fun h =>
    forall_mem_toDigits (P := fun d => d ≠ ',') (by decide) (by decide) _ ',' h rfl
  have hcomma : ∀ s ∈ (config.deviceFiles pagesz).flatMap CacheEntry.fields, ',' ∉ s :=
    forall_mem_fields (fun e he => (hplain e he).2.2) (not_mem_hexField (by decide) (by decide) (by decide))
  have hfiles : ',' ∉ config.fullCmdline pagesz := not_mem_separated (by decide) hcomma
  rw [hsplit]
  refine splitOn_separated ?_
  simp only [List.forall_mem_cons, List.mem_append, not_or]
  exact ⟨by decide, ⟨by decide, hsize, by decide⟩, ⟨by decide, by decide, hfiles⟩, by simp⟩

theorem length_deviceFiles_le (hm : config.segments.length ≤ hostshmemMaxEntries) :
    (config.deviceFiles pagesz).length ≤ ivshmemMaxFiles := by
  rw [Config.deviceFiles, List.length_append]
  unfold hostshmemMaxEntries at hm
  unfold ivshmemMaxFiles
  simp only [List.length_cons, List.length_nil]
  omega

end

/-- QEMU gets back the files that the library prints, and they fill a device whose size is a power of two. -/
theorem decode_cmdline {pagesz : UInt64} (hpage : IsPow2 pagesz) (hpage' : pagesz.toNat ≤ 2 ^ 20) {p : Process}
    {name : CStr} {slot : Nat} {config : Config} (hslot : getConfigByName name p.configs = some slot)
    (hconfig : p.configs[slot]? = some config) (hm : config.segments.length ≤ hostshmemMaxEntries)
    (hpaths : ∀ e ∈ config.segments, Plain e.filepath) (hname : Plain config.name)
    (hbig : ∃ e ∈ config.segments, 2 ^ 21 ≤ e.len.toNat)
    (htotal : (config.segments.map (fun e => e.len.toNat)).sum < 2 ^ 63 - 2 ^ 20) {size : Nat}
    (hcmdline : (config.fullCmdline pagesz).length < qemuCmdlineBufsize)
    (htext : (config.fullText pagesz).length < size) {fileSize : CStr → Option UInt64}
    (hopen : ∀ e ∈ config.deviceFiles pagesz, (fileSize e.filepath).isSome) :
    ∃ text sizearg shmobj device, cmdlineGenerate pagesz p (some size) (some name) = .ok text ∧
      optionValue "size".toList text = some sizearg ∧ optionValue "shm".toList text = some shmobj ∧
      ivshmemGetSize sizearg = .ok device ∧ IsPow2 device ∧ fdPrefix <+: shmobj ∧
      fdFiles fileSize shmobj = .ok ((config.deviceFiles pagesz).map ivshmemFile) ∧
      (((config.deviceFiles pagesz).map ivshmemFile).map (fun f => f.size.toNat)).sum = device.toNat := by
  obtain ⟨k, hk, hk20, hsum⟩ := totalSize_eq hpage hpage' hbig htotal
  have hplain : ∀ e ∈ config.deviceFiles pagesz, Plain e.filepath := plain_deviceFiles hpaths hname
  have hoptions := splitOn_fullText hplain
  refine ⟨config.fullText pagesz, formatU (config.totalSize pagesz >>> 20).toNat ++ "M".toList,
    "fd".toList ++ config.fullCmdline pagesz, config.totalSize pagesz, ?_, ?_, ?_, ivshmemGetSize_eq hk hk20, ⟨k, hk⟩, ?_,
    fdFiles_eq (length_deviceFiles_le hm) (fun e he => ⟨(hplain e he).1, (hplain e he).2.1⟩) hopen, ?_⟩
  · unfold cmdlineGenerate
    simp only
    rw [hslot]
    simp only
    rw [hconfig]
    exact cmdlineGenerate_eq hm hcmdline htext
  · rw [optionValue, hoptions]
    rfl
  · rw [optionValue, hoptions]
    rfl
  · obtain ⟨e, es, hes⟩ : ∃ e es, config.deviceFiles pagesz = e :: es :=
      List.exists_cons_of_ne_nil (by simp [Config.deviceFiles])
    rw [Config.fullCmdline, hes]
    exact ⟨e.filepath ++ _, rfl⟩
  · rw [List.map_map]
    exact hsum

/-- A config with pages of two files. -/
def twoFilesConfig : Config :=
  { Config.create "pp".toList with
      memsegCache := ⟨"/mnt/huge/rtemap_0".toList, 0x200000, 0x200000⟩ ::
        ⟨"/mnt/huge/rtemap_1".toList, 0, 0x600000⟩ :: List.replicate (hostshmemMaxPages - 2) {} }

theorem decode_twoFiles :
    twoFilesConfig.deviceFiles 0x1000 =
        [⟨"/mnt/huge/rtemap_0".toList, 0x200000, 0x200000⟩, ⟨"/mnt/huge/rtemap_1".toList, 0, 0x600000⟩,
          ⟨"/dev/zero".toList, 0, 0x7fc000⟩, ⟨"/var/run/.dpdk_hostshmem_metadata_pp".toList, 0, 0x4000⟩] ∧
      ∃ text sizearg shmobj device,
        cmdlineGenerate 0x1000 ⟨[twoFilesConfig], []⟩ (some 256) (some "pp".toList) = .ok text ∧
        optionValue "size".toList text = some sizearg ∧ optionValue "shm".toList text = some shmobj ∧
        ivshmemGetSize sizearg = .ok device ∧ IsPow2 device ∧ fdPrefix <+: shmobj ∧
        fdFiles (fun _ => some 0) shmobj = .ok ((twoFilesConfig.deviceFiles 0x1000).map ivshmemFile) ∧
        (((twoFilesConfig.deviceFiles 0x1000).map ivshmemFile).map (fun f => f.size.toNat)).sum = device.toNat := by
  have hsegs : twoFilesConfig.segments =
      [⟨"/mnt/huge/rtemap_0".toList, 0x200000, 0x200000⟩, ⟨"/mnt/huge/rtemap_1".toList, 0, 0x600000⟩] := by
    decide +kernel
  exact ⟨by decide +kernel, @decode_cmdline _ ⟨12, rfl⟩ (by decide) _ _ 0 _ (by decide +kernel) rfl
    (by rw [hsegs]; decide) (by rw [hsegs]; decide) (by decide) (by rw [hsegs]; decide) (by rw [hsegs]; decide) _
    (by decide +kernel) (by decide +kernel) _ (fun _ _ => rfl)⟩

end SoftPatchPanel.Qemu

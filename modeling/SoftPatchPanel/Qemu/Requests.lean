import SoftPatchPanel.Qemu.Ivshmem

/-!
# Requests that the ivshmem device maps

`pci_ivshmem_init` compares the number of colons of `shm` with the number of tokens, so it takes every text without an
empty field (`fdFiles_fields`).  What it takes is a list of files that fit into the device exactly when the fields are
complete triples and the sizes do not add up to more than the size of the device (`wellFormed_iff`).
-/

namespace SoftPatchPanel.Qemu

open Lib

/-! ### The device -/

/-- `ivshmem_size`: 4 MB without an argument. -/
def ivshmemSize : Option CStr → Except IvshmemFailure UInt64
  | none => .ok ((4 : UInt64) <<< 20)
  | some sizearg => ivshmemGetSize sizearg

/-- `pci_ivshmem_init` for a value of `shm` that starts with `FD_PREFIX`: the size of the device and the files with which
it calls `create_shared_memory_BAR`. -/
def pciIvshmemInit (fileSize : CStr → Option UInt64) (sizearg : Option CStr) (shmobj : CStr) :
    Except IvshmemFailure (UInt64 × List IVShmemFile) :=
  match ivshmemSize sizearg with
  | .error f => .error f
  | .ok size =>
    match fdFiles fileSize shmobj with
    | .error f => .error f
    | .ok files => .ok (size, files)

/-- The `MAP_FIXED` mappings of `create_shared_memory_BAR`, each with its place behind `virt_area` and its length. -/
def mappings : UInt64 → List IVShmemFile → List (UInt64 × UInt64)
  | _, [] => []
  | totalSize, file :: files => (totalSize, file.size) :: mappings (totalSize + file.size) files

/-- The sizes of the files together. -/
def sumSizes (files : List IVShmemFile) : Nat := files.foldr (fun file sum => file.size.toNat + sum) 0

/-- No mapping ends behind the window exactly when all files together fit into it. -/
private theorem mappings_inside_iff {size totalSize : UInt64} (files : List IVShmemFile)
    (h : totalSize.toNat ≤ size.toNat) :
    (∀ m ∈ mappings totalSize files, m.1.toNat + m.2.toNat ≤ size.toNat) ↔
      totalSize.toNat + sumSizes files ≤ size.toNat := by
  induction files generalizing totalSize with
  | nil => simpa [mappings, sumSizes] using h
  | cons file files ih =>
    have hlt := size.toNat_lt
    have hsum : sumSizes (file :: files) = file.size.toNat + sumSizes files := by simp [sumSizes]
    simp only [mappings, List.forall_mem_cons, hsum]
    by_cases hfits : totalSize.toNat + file.size.toNat ≤ size.toNat
    · -- the place of the next mapping has not wrapped around
      have hnext : (totalSize + file.size).toNat = totalSize.toNat + file.size.toNat := by
        rw [UInt64.toNat_add, Nat.mod_eq_of_lt (by omega)]
      rw [ih (by omega), hnext]
      omega
    · omega

/-! ### Triples -/

/-- The texts for one file. -/
structure Request where
  path : CStr
  offset : CStr
  size : CStr
deriving DecidableEq

/-- The fields of a file, in the order of the text. -/
def Request.fields (r : Request) : List CStr := [r.path, r.offset, r.size]

/-- The file with the numbers of its texts. -/
def Request.file (r : Request) : IVShmemFile := ⟨r.path, (strtoull 16 r.offset).1, (strtoull 16 r.size).1⟩

/-- The complete triples at the start of a list of fields. -/
def requests : List CStr → List Request
  | path :: offset :: size :: toks => ⟨path, offset, size⟩ :: requests toks
  | _ => []

private theorem length_lt_three {toks : List CStr}
    (h : ∀ path offset size toks', toks = path :: offset :: size :: toks' → False) : toks.length < 3 := by
  match toks, h with
  | [], _ => simp
  | [_], _ => simp
  | [_, _], _ => simp
  | path :: offset :: size :: toks, h => exact absurd rfl (h path offset size toks)

private theorem length_requests (toks : List CStr) : (requests toks).length = toks.length / 3 := by
  fun_induction requests toks with
  | case1 path offset size toks ih =>
    simp only [List.length_cons, ih]
    omega
  | case2 toks hshort =>
    have := length_lt_three hshort
    rw [List.length_nil]
    omega

private theorem flatMap_requests {toks : List CStr} (h : toks.length % 3 = 0) :
    (requests toks).flatMap Request.fields = toks := by
  fun_induction requests toks with
  | case1 path offset size toks ih =>
    simp only [List.length_cons] at h
    rw [List.flatMap_cons, ih (by omega)]
    rfl
  | case2 toks hshort =>
    have := length_lt_three hshort
    have hnil : toks = [] := List.length_eq_zero_iff.1 (by omega)
    rw [hnil]
    rfl

private theorem length_flatMap_fields (reqs : List Request) :
    (reqs.flatMap Request.fields).length = 3 * reqs.length := by
  induction reqs with
  | nil => rfl
  | cons r reqs ih =>
    rw [List.flatMap_cons, List.length_append, ih, List.length_cons]
    simp only [Request.fields, List.length_cons, List.length_nil]
    omega

/-! ### The parser -/

section

variable {fileSize : CStr → Option UInt64} (hopen : ∀ path, (fileSize path).isSome)
include hopen

/-- Fewer than three tokens leave the files that are there as they are. -/
private theorem FdState.tokens_short {st : FdState} {toks : List CStr}
    (hindex : st.fIndex < ivshmemMaxFiles) (htoken : st.tokenN = 3 * st.fIndex) (hshort : toks.length < 3) :
    ∃ st', st.tokens fileSize toks = .ok st' ∧ st'.tokenN = st.tokenN + toks.length ∧
      st'.f.take st'.fIndex = st.f.take st.fIndex := by
  -- the state after a path
  have hpath : ∀ path, ∃ st₁, st.token fileSize path = .ok st₁ ∧ st₁.tokenN = st.tokenN + 1 ∧
      st₁.fIndex = st.fIndex ∧ st₁.f.take st.fIndex = st.f.take st.fIndex := by
    intro path
    obtain ⟨size, hsize⟩ := Option.isSome_iff_exists.1 (hopen path)
    refine ⟨{ st with f := st.f.set st.fIndex { st.file with fd := path, size := size }, tokenN := st.tokenN + 1 },
      ?_, rfl, rfl, List.take_set_of_le (Nat.le_refl _)⟩
    rw [FdState.token, if_neg hindex.ne, if_neg (by omega), if_pos (by omega), hsize]
  rcases toks with _ | ⟨path, _ | ⟨offset, _ | ⟨size, toks⟩⟩⟩
  · exact ⟨st, rfl, by simp, rfl⟩
  · obtain ⟨st₁, hrun, htok, hidx, htake⟩ := hpath path
    refine ⟨st₁, by rw [FdState.tokens, hrun]; rfl, by rw [htok]; simp, by rw [hidx, htake]⟩
  · obtain ⟨st₁, hrun, htok, hidx, htake⟩ := hpath path
    refine ⟨{ st₁ with
      f := st₁.f.set st₁.fIndex { st₁.file with offset := (strtoull 16 offset).1 }
      tokenN := st₁.tokenN + 1 }, ?_, ?_, ?_⟩
    · rw [FdState.tokens, hrun]
      simp only
      rw [FdState.tokens, FdState.token, if_neg (by omega), if_neg (by omega), if_neg (by omega), if_pos (by omega)]
      rfl
    · simp only [htok, List.length_cons, List.length_nil]
      omega
    · simp only
      rw [List.take_set_of_le (Nat.le_refl _), hidx, htake]
  · simp only [List.length_cons] at hshort
    omega

/-- The loop over the tokens: it exits when there are tokens left after the last file, and else has read the complete
triples. -/
private theorem FdState.tokens_all {st : FdState} {toks : List CStr} (hlen : st.f.length = ivshmemMaxFiles)
    (hindex : st.fIndex ≤ ivshmemMaxFiles) (htoken : st.tokenN = 3 * st.fIndex) :
    (3 * st.fIndex + toks.length ≤ 3 * ivshmemMaxFiles →
      ∃ st', st.tokens fileSize toks = .ok st' ∧ st'.tokenN = st.tokenN + toks.length ∧
        st'.f.take st'.fIndex = st.f.take st.fIndex ++ (requests toks).map Request.file) ∧
    (3 * ivshmemMaxFiles < 3 * st.fIndex + toks.length → ∃ f, st.tokens fileSize toks = .error f) := by
  fun_induction requests toks generalizing st with
  | case1 path offset size toks ih =>
    rcases Nat.lt_or_eq_of_le hindex with hlt | hfull
    · obtain ⟨ih1, ih2⟩ := @ih (st.add ⟨path, (strtoull 16 offset).1, (strtoull 16 size).1⟩)
        (by simpa [FdState.add] using hlen) (by simp only [FdState.add]; omega)
        (by simp only [FdState.add]; push_cast; omega)
      rw [FdState.tokens_three hlen hlt htoken (hopen path)]
      simp only [FdState.add, List.length_cons] at ih1 ih2 ⊢
      constructor
      · intro hroom
        obtain ⟨st', hrun, htok, htake⟩ := ih1 (by omega)
        refine ⟨st', hrun, by rw [htok]; push_cast; omega, ?_⟩
        rw [htake, List.take_add_one, List.take_set_of_le (Nat.le_refl _), List.getElem?_set_self (by omega)]
        simp [Request.file]
      · intro hmany
        exact ih2 (by omega)
    · constructor
      · intro hroom
        simp only [List.length_cons] at hroom
        omega
      · intro _
        exact ⟨_, by rw [FdState.tokens, FdState.token, if_pos hfull]⟩
  | case2 toks hshort =>
    have hlen3 := length_lt_three hshort
    rcases Nat.lt_or_eq_of_le hindex with hlt | hfull
    · refine ⟨fun _ => ?_, fun hmany => by omega⟩
      obtain ⟨st', hrun, htok, htake⟩ := st.tokens_short hopen hlt htoken hlen3
      exact ⟨st', hrun, htok, by simpa using htake⟩
    · cases toks with
      | nil =>
        refine ⟨fun _ => ⟨st, rfl, by simp, by simp⟩, fun hmany => ?_⟩
        simp only [List.length_nil] at hmany
        omega
      | cons tok toks =>
        refine ⟨fun hroom => ?_, fun _ => ⟨_, by rw [FdState.tokens, FdState.token, if_pos hfull]⟩⟩
        simp only [List.length_cons] at hroom
        omega

/-- The parser on a text with the given fields behind `fd`: it takes the text exactly when no field is empty and there
are no more fields than for the greatest number of files. -/
theorem fdFiles_fields {fields : List CStr} (hcolon : ∀ s ∈ fields, ':' ∉ s) :
    ((∀ s ∈ fields, s ≠ []) ∧ fields.length ≤ 3 * ivshmemMaxFiles →
      fdFiles fileSize ("fd".toList ++ separated ':' fields) = .ok ((requests fields).map Request.file)) ∧
    (¬((∀ s ∈ fields, s ≠ []) ∧ fields.length ≤ 3 * ivshmemMaxFiles) →
      ∃ f, fdFiles fileSize ("fd".toList ++ separated ':' fields) = .error f) := by
  have hcount : ("fd".toList ++ separated ':' fields).count ':' = fields.length := by
    rw [List.count_append, count_separated hcolon]
    simp
  have htokens : strtok ':' ("fd".toList ++ separated ':' fields) =
      "fd".toList :: fields.filter (fun s => s ≠ []) := by
    rw [strtok, splitOn_separated (List.forall_mem_cons.2 ⟨by decide, hcolon⟩), List.filter_cons_of_pos (by decide)]
  obtain ⟨toks, htoks⟩ : ∃ toks, toks = fields.filter (fun s => decide (s ≠ [])) := ⟨_, rfl⟩
  rw [← htoks] at htokens
  have hfirst : FdState.tokens fileSize {} ("fd".toList :: toks) = FdState.tokens fileSize { tokenN := 0 } toks := by
    rw [FdState.tokens, FdState.token, if_neg (by decide), if_pos rfl]
    rfl
  obtain ⟨hfit, hmany⟩ := @FdState.tokens_all _ hopen { tokenN := 0 } toks (by simp) (by simp) (by simp)
  simp only [Nat.mul_zero, Nat.zero_add, Int.zero_add, List.take_zero, List.nil_append] at hfit hmany
  have hle : toks.length ≤ fields.length := by
    rw [htoks]
    exact List.length_filter_le _ _
  unfold fdFiles
  simp only
  rw [htokens, hcount, hfirst]
  constructor
  · rintro ⟨hne, hlen⟩
    have hself : toks = fields := by
      rw [htoks]
      exact List.filter_eq_self.2 (by simpa using hne)
    rw [hself] at hfit ⊢
    obtain ⟨st, hrun, htok, htake⟩ := hfit hlen
    rw [hrun]
    simp only
    rw [if_neg (by rw [htok]; unfold ivshmemMaxFiles at *; omega), htake]
  · intro hno
    by_cases hroom : toks.length ≤ 3 * ivshmemMaxFiles
    · obtain ⟨st, hrun, htok, -⟩ := hfit hroom
      refine ⟨.invalidParameters, ?_⟩
      rw [hrun]
      simp only
      rw [if_pos]
      by_cases hlen : toks.length = fields.length
      · -- no field is empty, so there are too many of them
        rw [htoks] at hlen
        have hne : ∀ s ∈ fields, s ≠ [] := by simpa using List.length_filter_eq_length_iff.1 hlen
        exact absurd ⟨hne, by rw [← htoks] at hlen; omega⟩ hno
      · left
        rw [htok]
        omega
    · obtain ⟨f, hrun⟩ := hmany (by omega)
      exact ⟨f, by rw [hrun]⟩

end

/-! ### Well-formed requests -/

/-- The fields of a text behind `fd:`. -/
def fdFields (shmobj : CStr) : List CStr := (shmobj.drop fdPrefix.length).splitOn ':'

private theorem eq_separated_fdFields {shmobj : CStr} (h : fdPrefix <+: shmobj) :
    shmobj = "fd".toList ++ separated ':' (fdFields shmobj) := by
  obtain ⟨rest, rfl⟩ := h
  rw [fdFields, List.drop_left, separated_splitOn]
  rfl

private theorem not_mem_fdFields (shmobj : CStr) : ∀ s ∈ fdFields shmobj, ':' ∉ s :=
  fun _ hs => not_mem_of_mem_splitOn hs

/-- The files are those of one to `IVSHMEM_MAX_FILES` complete triples that the text consists of, and all of them are
mapped inside a device of this size. -/
structure WellFormed (shmobj : CStr) (size : UInt64) (files : List IVShmemFile) : Prop where
  triples : ∃ reqs : List Request, 1 ≤ reqs.length ∧ reqs.length ≤ ivshmemMaxFiles ∧
    (∀ s ∈ reqs.flatMap Request.fields, s ≠ [] ∧ ':' ∉ s) ∧
    shmobj = "fd".toList ++ separated ':' (reqs.flatMap Request.fields) ∧ files = reqs.map Request.file
  fits : sumSizes files ≤ size.toNat
  inside : ∀ m ∈ mappings 0 files, m.1.toNat + m.2.toNat ≤ size.toNat

/-- What `pci_ivshmem_init` hands on for a text behind `fd:`. -/
private theorem pciIvshmemInit_eq_ok {fileSize : CStr → Option UInt64} (hopen : ∀ path, (fileSize path).isSome)
    {sizearg : Option CStr} {shmobj : CStr} (hshm : fdPrefix <+: shmobj) {size : UInt64} {files : List IVShmemFile} :
    pciIvshmemInit fileSize sizearg shmobj = .ok (size, files) ↔
      ivshmemSize sizearg = .ok size ∧
        ((∀ s ∈ fdFields shmobj, s ≠ []) ∧ (fdFields shmobj).length ≤ 3 * ivshmemMaxFiles) ∧
        files = (requests (fdFields shmobj)).map Request.file := by
  obtain ⟨htake, hexit⟩ := fdFiles_fields hopen (not_mem_fdFields shmobj)
  rw [← eq_separated_fdFields hshm] at htake hexit
  unfold pciIvshmemInit
  cases hsize : ivshmemSize sizearg with
  | error f => simp
  | ok size' =>
    by_cases hgood : (∀ s ∈ fdFields shmobj, s ≠ []) ∧ (fdFields shmobj).length ≤ 3 * ivshmemMaxFiles
    · rw [htake hgood]
      simp only [Except.ok.injEq, Prod.mk.injEq]
      constructor
      · rintro ⟨rfl, rfl⟩
        exact ⟨rfl, hgood, rfl⟩
      · rintro ⟨rfl, -, rfl⟩
        exact ⟨rfl, rfl⟩
    · obtain ⟨f, hf⟩ := hexit hgood
      simp [hf, hgood]

/-- A text that consists of triples has their fields. -/
private theorem fdFields_eq {shmobj : CStr} (hshm : fdPrefix <+: shmobj) {fields : List CStr}
    (hcolon : ∀ s ∈ fields, ':' ∉ s) (htext : shmobj = "fd".toList ++ separated ':' fields) :
    fdFields shmobj = fields := by
  have hsplit := congrArg (List.splitOn ':') ((eq_separated_fdFields hshm).symm.trans htext)
  rw [splitOn_separated (List.forall_mem_cons.2 ⟨by decide, not_mem_fdFields shmobj⟩),
    splitOn_separated (List.forall_mem_cons.2 ⟨by decide, hcolon⟩)] at hsplit
  exact (List.cons.inj hsplit).2

/-- The triples of a text of non-empty fields, three by three. -/
private theorem wellFormed_requests {shmobj : CStr} (hshm : fdPrefix <+: shmobj) {size : UInt64}
    (hne : ∀ s ∈ fdFields shmobj, s ≠ []) (hlen : (fdFields shmobj).length ≤ 3 * ivshmemMaxFiles)
    (hthree : (fdFields shmobj).length % 3 = 0)
    (hfits : sumSizes ((requests (fdFields shmobj)).map Request.file) ≤ size.toNat) :
    WellFormed shmobj size ((requests (fdFields shmobj)).map Request.file) := by
  have hflat := flatMap_requests hthree
  have hpos : 0 < (fdFields shmobj).length := List.length_pos_iff.2 (List.splitOn_ne_nil _ _)
  refine ⟨⟨requests (fdFields shmobj), ?_, ?_, ?_, ?_, rfl⟩, hfits, ?_⟩
  · rw [length_requests]
    omega
  · rw [length_requests]
    omega
  · rw [hflat]
    exact fun s hs => ⟨hne s hs, not_mem_fdFields shmobj s hs⟩
  · rw [hflat]
    exact eq_separated_fdFields hshm
  · rw [mappings_inside_iff _ (Nat.zero_le _)]
    simpa using hfits

/-- `create_shared_memory_BAR` is reached for every good size and every text of up to `3 * IVSHMEM_MAX_FILES` fields of
which none is empty, and for no other.  The request is well formed exactly when the number of fields is a multiple of
3 and the sizes of the triples do not add up to more than the size of the device; the code checks neither. -/
theorem wellFormed_iff {fileSize : CStr → Option UInt64} (hopen : ∀ path, (fileSize path).isSome)
    (sizearg : Option CStr) {shmobj : CStr} (hshm : fdPrefix <+: shmobj) :
    ((∃ size files, pciIvshmemInit fileSize sizearg shmobj = .ok (size, files)) ↔
      (∃ size, ivshmemSize sizearg = .ok size) ∧ (∀ s ∈ fdFields shmobj, s ≠ []) ∧
        (fdFields shmobj).length ≤ 3 * ivshmemMaxFiles) ∧
    ∀ size files, pciIvshmemInit fileSize sizearg shmobj = .ok (size, files) →
      (WellFormed shmobj size files ↔ (fdFields shmobj).length % 3 = 0 ∧
        ∃ window, ivshmemSize sizearg = .ok window ∧
          sumSizes ((requests (fdFields shmobj)).map Request.file) ≤ window.toNat) := by
  constructor
  · constructor
    · rintro ⟨size, files, h⟩
      obtain ⟨h1, h2, -⟩ := (pciIvshmemInit_eq_ok hopen hshm).1 h
      exact ⟨⟨size, h1⟩, h2⟩
    · rintro ⟨⟨size, h1⟩, h2⟩
      exact ⟨size, _, (pciIvshmemInit_eq_ok hopen hshm).2 ⟨h1, h2, rfl⟩⟩
  · intro size files h
    obtain ⟨hsize, ⟨hne, hlen⟩, rfl⟩ := (pciIvshmemInit_eq_ok hopen hshm).1 h
    constructor
    · rintro ⟨⟨reqs, -, -, hreqs, htext, -⟩, hfits, -⟩
      refine ⟨?_, size, hsize, hfits⟩
      rw [fdFields_eq hshm (fun s hs => (hreqs s hs).2) htext, length_flatMap_fields]
      omega
    · rintro ⟨hthree, window, hwindow, hfits⟩
      rw [hsize] at hwindow
      cases hwindow
      exact wellFormed_requests hshm hne hlen hthree hfits

/-- One page of 2 MB for a device of 2 MB. -/
theorem wellFormed_onePage :
    ∃ size files, pciIvshmemInit (fun _ => some 0) (some "2M".toList) "fd:/mnt/huge/rtemap_0:0x0:0x200000".toList =
        .ok (size, files) ∧
      WellFormed "fd:/mnt/huge/rtemap_0:0x0:0x200000".toList size files := by
  have h : pciIvshmemInit (fun _ => some 0) (some "2M".toList) "fd:/mnt/huge/rtemap_0:0x0:0x200000".toList =
      .ok (0x200000, [⟨"/mnt/huge/rtemap_0".toList, 0, 0x200000⟩]) := by decide +kernel
  exact ⟨_, _, h, ((@wellFormed_iff (fun _ => some 0) (fun _ => rfl) (some "2M".toList) _ (by decide)).2 _ _ h).2
    ⟨by decide +kernel, 0x200000, by decide +kernel, by decide +kernel⟩⟩

/-- An incomplete triple is taken for no file at all, and a file of 1 GB is mapped into a device of 2 MB. -/
theorem malformed_taken :
    (∃ size files, pciIvshmemInit (fun _ => some 0) none "fd:/mnt/huge/rtemap_0:0x0".toList = .ok (size, files) ∧
      ¬WellFormed "fd:/mnt/huge/rtemap_0:0x0".toList size files) ∧
    ∃ size files, pciIvshmemInit (fun _ => some 0) (some "2M".toList) "fd:/mnt/huge/rtemap_0:0x0:0x40000000".toList =
        .ok (size, files) ∧
      ¬WellFormed "fd:/mnt/huge/rtemap_0:0x0:0x40000000".toList size files := by
  constructor
  · refine ⟨0x400000, [], by decide +kernel, fun h => ?_⟩
    obtain ⟨reqs, hpos, -, -, -, hfiles⟩ := h.triples
    rw [List.map_eq_nil_iff.1 hfiles.symm] at hpos
    exact absurd hpos (by decide)
  · refine ⟨0x200000, [⟨"/mnt/huge/rtemap_0".toList, 0, 0x40000000⟩], by decide +kernel, fun h => ?_⟩
    exact absurd h.fits (by decide)

end SoftPatchPanel.Qemu

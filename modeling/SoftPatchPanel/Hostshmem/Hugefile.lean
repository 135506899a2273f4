import SoftPatchPanel.Hostshmem.Layout

/-!
# The files behind the hugepages

`get_hugefile_by_virt_addr` looks an address up in `/proc/self/maps`.  With `RTE_EAL_SINGLE_FILE_SEGMENTS` each memseg
is one mapping of one file from offset 0 on, so the file holds all pages of the memseg and the offset of a page is its
distance from the start of the memseg (`getHugefileByVirtAddr_eq`).
-/

namespace SoftPatchPanel.Hostshmem

open Lib

/-- A line of `/proc/self/maps`: the range and, if there is a `/` behind it, the text from there on. -/
structure MapsLine where
  startAddr : UInt64
  endAddr : UInt64
  path : Option CStr
deriving DecidableEq

/-- `get_hugefile_by_virt_addr`, on the lines of a file that can be opened and parsed. -/
def getHugefileByVirtAddr (virtAddr : UInt64) : List MapsLine → Option (CStr × UInt64)
  | [] => none
  | line :: lines =>
    if line.startAddr > virtAddr then getHugefileByVirtAddr virtAddr lines
    else if line.endAddr ≤ virtAddr then getHugefileByVirtAddr virtAddr lines
    else
      match line.path with
      | none => getHugefileByVirtAddr virtAddr lines
      | some path => some (path, virtAddr - line.startAddr)

/-- The mapping of a memseg. -/
def Seg.mapsLine (s : Seg) (file : CStr) : MapsLine :=
  ⟨UInt64.ofNat s.virt, UInt64.ofNat (s.virt + s.len), some file⟩

/-- The memsegs of the layout are mappings of their files, and nothing else is mapped there. -/
structure ShowsMaps (L : Layout) (file : Seg → CStr) (lines : List MapsLine) : Prop where
  shown : ∀ s ∈ L.segs, s.mapsLine (file s) ∈ lines
  only : ∀ line ∈ lines, ∀ s ∈ L.segs, line.startAddr.toNat < s.virt + s.len → s.virt < line.endAddr.toNat →
    line = s.mapsLine (file s)

/-- The file and the offset in it that back an address of the layout. -/
def Layout.backing (L : Layout) (file : Seg → CStr) (v : UInt64) : Option (CStr × UInt64) :=
  (L.segs.find? (fun s => s.virt ≤ v.toNat ∧ v.toNat < s.virt + s.len)).map
    (fun s => (file s, v - UInt64.ofNat s.virt))

section

variable {L : Layout} {file : Seg → CStr} {s : Seg} {v : UInt64}

theorem Layout.backing_eq (hs : s ∈ L.segs) (h1 : s.virt ≤ v.toNat) (h2 : v.toNat < s.virt + s.len) :
    L.backing file v = some (file s, v - UInt64.ofNat s.virt) := by
  unfold Layout.backing
  cases hfind : L.segs.find? (fun s => s.virt ≤ v.toNat ∧ v.toNat < s.virt + s.len) with
  | none =>
    have := List.find?_eq_none.1 hfind s hs
    simp only [decide_eq_true_eq] at this
    omega
  | some t =>
    have ht := List.find?_some hfind
    simp only [decide_eq_true_eq] at ht
    by_cases hst : s = t
    · rw [hst]; rfl
    · rcases L.virt_disjoint.forall hs (List.mem_of_find?_eq_some hfind) hst with h | h <;> omega

theorem Seg.toNat_virt (hs : s ∈ L.segs) : (UInt64.ofNat s.virt).toNat = s.virt := by
  have := L.virt_end s hs
  exact UInt64.toNat_ofNat_of_lt' (by show _ < 2 ^ 64; omega)

private theorem Seg.toNat_endAddr (hs : s ∈ L.segs) : (UInt64.ofNat (s.virt + s.len)).toNat = s.virt + s.len :=
  UInt64.toNat_ofNat_of_lt' (L.virt_end s hs)

/-- For an address of a memseg the search ends at the mapping of the memseg. -/
theorem getHugefileByVirtAddr_eq {lines : List MapsLine} (hm : ShowsMaps L file lines) (hs : s ∈ L.segs)
    (h1 : s.virt ≤ v.toNat) (h2 : v.toNat < s.virt + s.len) :
    getHugefileByVirtAddr v lines = some (file s, v - UInt64.ofNat s.virt) := by
  have hin := hm.shown s hs
  have honly := hm.only
  clear hm
  induction lines with
  | nil => simp at hin
  | cons line lines ih =>
    unfold getHugefileByVirtAddr
    by_cases hline : line = s.mapsLine (file s)
    · subst hline
      have hstart : ¬(s.mapsLine (file s)).startAddr > v := by
        intro h
        have := UInt64.lt_iff_toNat_lt.1 h
        rw [Seg.mapsLine, Seg.toNat_virt hs] at this
        omega
      have hend : ¬(s.mapsLine (file s)).endAddr ≤ v := by
        rw [UInt64.le_iff_toNat_le, Seg.mapsLine, Seg.toNat_endAddr hs]
        omega
      rw [ite_cond_eq_false _ _ (eq_false hstart), ite_cond_eq_false _ _ (eq_false hend)]
      rfl
    · -- another line does not reach the address
      have hrest := ih (List.mem_of_ne_of_mem (Ne.symm hline) hin) (fun l hl => honly l (by simp [hl]))
      have hmiss : line.startAddr > v ∨ line.endAddr ≤ v := by
        by_contra h
        rw [not_or, gt_iff_lt, UInt64.lt_iff_toNat_lt, UInt64.le_iff_toNat_le] at h
        exact hline (honly line (by simp) s hs (by omega) (by omega))
      split
      · exact hrest
      · split
        · exact hrest
        · rcases hmiss with h | h <;> contradiction

end

end SoftPatchPanel.Hostshmem

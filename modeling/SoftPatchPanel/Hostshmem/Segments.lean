import SoftPatchPanel.Hostshmem.Entries
import SoftPatchPanel.Lib.Loop

/-!
# The table of segments

`eal_hostshmem.c` sorts its segments with `seg_compare` and then merges those that overlap or adjoin each other.

The comparators return 1 for "greater" but 0 for "less", so they say what `qsort` asks for only about elements of which
one is unused or that have the same physical address (`comparators_consistent_iff`).

`cleanup_segments` repeats its loop as long as two segments overlap, or adjoin each other virtually or physically but
not in ioremap space, and it merges segments that overlap or adjoin each other in all three spaces.  A round that finds
nothing to merge leaves the table as it is and the loop never ends.

What a merge leaves behind is the union of two segments in each space when both have the same distances between their
three addresses, as the segments of one device have.  Merging then changes nothing in how the segments of different
devices lie to each other, and the table that is given decides: the loop ends exactly when two segments overlap and cannot
be merged, which is an error, or when no two adjoin each other in the way the loop waits for (`cleanupSegments_ends_iff`).
The segments of a single device are always cleaned up (`cleanupSegments_oneDevice`).
-/

namespace SoftPatchPanel.Hostshmem

open Lib

/-- `struct hostshmem_segment`. -/
structure Segment where
  entry : Entry := {}
  align : UInt64 := 0
  path : CStr := []
deriving DecidableEq

/-! ### The comparators -/

/-- `seg_compare`, which compares the zones of two segments as `entry_compare` does those of two entries. -/
def segCompare (s1 s2 : Segment) : Int := entryCompare s1.entry s2.entry

/-- What `qsort` asks of a comparator for three elements. -/
structure Consistent {α : Type} (compare : α → α → Int) (a b c : α) : Prop where
  gt_iff : 0 < compare a b ↔ compare b a < 0
  eq_iff : compare a b = 0 ↔ compare b a = 0
  trans : compare a b ≤ 0 → compare b c ≤ 0 → compare a c ≤ 0

private theorem entryCompare_of_ne {a b : Entry} (ha : a.mz.addr64 ≠ 0) (hb : b.mz.addr64 ≠ 0) :
    entryCompare a b = if a.mz.physAddr > b.mz.physAddr then 1 else 0 := by
  simp [entryCompare, ha, hb]

private theorem entryCompare_free_left {a b : Entry} (ha : a.mz.addr64 = 0) :
    entryCompare a b = if b.mz.addr64 = 0 then 0 else 1 := by
  simp [entryCompare, ha]

private theorem entryCompare_free_right {a b : Entry} (hb : b.mz.addr64 = 0) :
    entryCompare a b = if a.mz.addr64 = 0 then 0 else -1 := by
  by_cases ha : a.mz.addr64 = 0
  · simp [entryCompare, ha, hb]
  · simp [entryCompare, ha, hb]

private theorem entryCompare_range (a b : Entry) :
    entryCompare a b = -1 ∨ entryCompare a b = 0 ∨ entryCompare a b = 1 := by
  unfold entryCompare
  split
  · simp
  split
  · simp
  split
  · simp
  split <;> simp

/-- The two directions of a comparison are opposite when one entry is unused or the addresses are equal.  Otherwise one
direction gives 1 and the other one 0. -/
private theorem entryCompare_swap_iff (a b : Entry) :
    entryCompare b a = -entryCompare a b ↔ a.mz.addr64 = 0 ∨ b.mz.addr64 = 0 ∨ a.mz.physAddr = b.mz.physAddr := by
  by_cases ha : a.mz.addr64 = 0
  · refine iff_of_true ?_ (Or.inl ha)
    rw [entryCompare_free_left ha, entryCompare_free_right ha]
    split <;> rfl
  by_cases hb : b.mz.addr64 = 0
  · refine iff_of_true ?_ (Or.inr (Or.inl hb))
    rw [entryCompare_free_left hb, entryCompare_free_right hb, if_neg ha, if_neg ha]
    rfl
  rw [or_iff_right ha, or_iff_right hb, entryCompare_of_ne ha hb, entryCompare_of_ne hb ha]
  by_cases hgt : a.mz.physAddr > b.mz.physAddr
  · rw [if_pos hgt, if_neg (UInt64.lt_asymm hgt)]
    exact iff_of_false (by decide) (UInt64.ne_of_lt hgt).symm
  by_cases hlt : b.mz.physAddr > a.mz.physAddr
  · rw [if_neg hgt, if_pos hlt]
    exact iff_of_false (by decide) (UInt64.ne_of_lt hlt)
  rw [if_neg hgt, if_neg hlt]
  exact iff_of_true rfl (UInt64.le_antisymm (UInt64.not_lt.1 hgt) (UInt64.not_lt.1 hlt))

private theorem entryCompare_consistent_iff (a b c : Entry) :
    Consistent entryCompare a b c ↔ a.mz.addr64 = 0 ∨ b.mz.addr64 = 0 ∨ a.mz.physAddr = b.mz.physAddr := by
  have hab := entryCompare_range a b
  have hba := entryCompare_range b a
  rw [← entryCompare_swap_iff]
  constructor
  · rintro ⟨hgt, heq, -⟩
    omega
  · intro hswap
    refine ⟨?_, ?_, entryCompare_trans⟩
    · omega
    · omega

/-- Both comparators say what `qsort` asks for exactly when one of the first two elements is unused or both have the same
physical address.  The third condition always holds. -/
theorem comparators_consistent_iff (a b c : Entry) (s1 s2 s3 : Segment) :
    (Consistent entryCompare a b c ↔ a.mz.addr64 = 0 ∨ b.mz.addr64 = 0 ∨ a.mz.physAddr = b.mz.physAddr) ∧
    (Consistent segCompare s1 s2 s3 ↔
      s1.entry.mz.addr64 = 0 ∨ s2.entry.mz.addr64 = 0 ∨ s1.entry.mz.physAddr = s2.entry.mz.physAddr) := by
  refine ⟨entryCompare_consistent_iff a b c, ?_⟩
  rw [← entryCompare_consistent_iff s1.entry s2.entry s3.entry]
  exact ⟨fun h => ⟨h.gt_iff, h.eq_iff, h.trans⟩, fun h => ⟨h.gt_iff, h.eq_iff, h.trans⟩⟩

/-- Two zones next to each other in virtual and physical memory, with the ioremap addresses that `map_all_segments` gives
them: the physical address with the offset in the device added. -/
def neighbours : Segment × Segment where
  fst := { entry := { mz := { physAddr := 0x100000000, addr64 := 0x7f0000000000, ioremapAddr := 0x100000000,
                              len := 0x1000 } } }
  snd := { entry := { mz := { physAddr := 0x100001000, addr64 := 0x7f0000001000, ioremapAddr := 0x100002000,
                              len := 0x1000 }
                      offset := 0x1000 } }

/-- Of two neighbouring zones the second one is greater than the first one, but the first one is not less. -/
theorem comparators_inconsistent :
    segCompare neighbours.2 neighbours.1 = 1 ∧ segCompare neighbours.1 neighbours.2 = 0 ∧
    entryCompare neighbours.2.entry neighbours.1.entry = 1 ∧
    entryCompare neighbours.1.entry neighbours.2.entry = 0 := by
  decide

/-! ### Overlapping and adjacent segments -/

namespace Segment

/-- What `overlap` and `adjacent` return: a set of `VIRT`, `PHYS` and `IOREMAP`. -/
structure Spaces where
  virt : Bool
  phys : Bool
  ioremap : Bool
deriving DecidableEq

/-- `FULL`. -/
def Spaces.full : Spaces := ⟨true, true, true⟩

/-- The result 0. -/
def Spaces.none : Spaces := ⟨false, false, false⟩

/-- The test of `overlap` in one address space; the ends wrap around as in C. -/
def rangesOverlap (start1 len1 start2 len2 : UInt64) : Bool :=
  (start2 ≤ start1 && start1 < start2 + len2) || (start1 ≤ start2 && start2 < start1 + len1)

/-- The test of `adjacent` in one address space. -/
def rangesAdjacent (start1 len1 start2 len2 : UInt64) : Bool := start1 == start2 + len2 || start2 == start1 + len1

/-- A test in each of the three address spaces of two zones. -/
def inSpaces (test : UInt64 → UInt64 → UInt64 → UInt64 → Bool) (mz1 mz2 : Memzone) : Spaces where
  virt := test mz1.addr64 mz1.len mz2.addr64 mz2.len
  phys := test mz1.physAddr mz1.len mz2.physAddr mz2.len
  ioremap := test mz1.ioremapAddr mz1.len mz2.ioremapAddr mz2.len

/-- `overlap` of `eal_hostshmem.c`. -/
def overlap (mz1 mz2 : Memzone) : Spaces := inSpaces rangesOverlap mz1 mz2

/-- `adjacent`. -/
def adjacent (mz1 mz2 : Memzone) : Spaces := inSpaces rangesAdjacent mz1 mz2

/-- The condition of `has_overlapping_segments` on two segments. -/
def overlapping (s tmp : Segment) : Bool := overlap s.entry.mz tmp.entry.mz ≠ Spaces.none

/-- The condition of `has_adjacent_segments` on two segments: adjacent virtually or physically but not ioremap. -/
def adjoining (s tmp : Segment) : Bool :=
  let a := adjacent s.entry.mz tmp.entry.mz
  (a.virt || a.phys) && !a.ioremap

/-- The condition under which two segments are concatenated. -/
def mergeable (s tmp : Segment) : Bool :=
  adjacent s.entry.mz tmp.entry.mz = Spaces.full ∨ overlap s.entry.mz tmp.entry.mz = Spaces.full

/-- The loops over all places `i < j` of a table. -/
def anyPair (p : Segment → Segment → Bool) : List Segment → Bool
  | [] => false
  | s :: ms => ms.any (p s) || anyPair p ms

/-- `has_adjacent_segments`. -/
def hasAdjacentSegments : List Segment → Bool := anyPair adjoining

/-- `has_overlapping_segments`. -/
def hasOverlappingSegments : List Segment → Bool := anyPair overlapping

/-! ### The clean-up -/

/-- `RTE_MIN`. -/
def rteMin (a b : UInt64) : UInt64 := if a < b then a else b

/-- `RTE_MAX`. -/
def rteMax (a b : UInt64) : UInt64 := if a > b then a else b

/-- Two segments in one: the minimum start addresses, and the length up to the maximum virtual end. -/
def concat (s tmp : Segment) : Segment :=
  let start := rteMin s.entry.mz.addr64 tmp.entry.mz.addr64
  let end1 := s.entry.mz.addr64 + s.entry.mz.len
  let end2 := tmp.entry.mz.addr64 + tmp.entry.mz.len
  { s with
    entry := {
      mz := { s.entry.mz with
        addr64 := start
        physAddr := rteMin s.entry.mz.physAddr tmp.entry.mz.physAddr
        ioremapAddr := rteMin s.entry.mz.ioremapAddr tmp.entry.mz.ioremapAddr
        len := rteMax end1 end2 - start }
      offset := rteMin s.entry.offset tmp.entry.offset } }

/-- What the two `for` loops come to: nothing to do, the return of -1, or segments concatenated. -/
inductive Scan (α : Type) where
  | nothing
  | error
  | concatenated (a : α)
deriving DecidableEq

/-- The loop over `j`: the segment and the ones behind it, after the concatenation and the removal of segment `j`. -/
def scanRow (s : Segment) : List Segment → Scan (Segment × List Segment)
  | [] => .nothing
  | tmp :: ms =>
    if mergeable s tmp then .concatenated (s.concat tmp, ms)
    else if overlapping s tmp then .error
    else
      match scanRow s ms with
      | .nothing => .nothing
      | .error => .error
      | .concatenated (s', ms') => .concatenated (s', tmp :: ms')

/-- The loop over `i`. -/
def scan : List Segment → Scan (List Segment)
  | [] => .nothing
  | s :: ms =>
    match scanRow s ms with
    | .error => .error
    | .concatenated (s', ms') => .concatenated (s' :: ms')
    | .nothing =>
      match scan ms with
      | .nothing => .nothing
      | .error => .error
      | .concatenated ms' => .concatenated (s :: ms')

/-- One round of the `while` loop: it ends with the table, or with `none` for -1. -/
def cleanupRound (ms : List Segment) : List Segment ⊕ Option (List Segment) :=
  if hasOverlappingSegments ms || hasAdjacentSegments ms then
    match scan ms with
    | .nothing => .inl ms
    | .error => .inr none
    | .concatenated ms' => .inl ms'
  else .inr (some ms)

/-- `cleanup_segments`, with at most `fuel` rounds of its `while` loop.  The table is the part of the array up to
`tbl_len`, which is the result; what is removed is cleared behind it. -/
def cleanupSegments (qsort : List Segment → List Segment) (fuel : Nat) (ms : List Segment) :
    Option (Option (List Segment)) :=
  loop cleanupRound fuel (qsort ms)

/-- No two segments overlap, and none are adjacent virtually or physically but not in ioremap space. -/
def Clean (ms : List Segment) : Prop := ms.Pairwise (fun s tmp => overlapping s tmp = false ∧ adjoining s tmp = false)

/-- Two segments that a round passes over: they overlap in no space and are not adjacent in all of them. -/
def Apart (s tmp : Segment) : Prop :=
  overlapping s tmp = false ∧ adjacent s.entry.mz tmp.entry.mz ≠ Spaces.full

/-- There is nothing to merge, but there are two segments that are adjacent virtually or physically and not in ioremap
space. -/
structure Stuck (ms : List Segment) : Prop where
  apart : ms.Pairwise Apart
  adjoining : ¬ms.Pairwise (fun s tmp => adjoining s tmp = false)

private theorem anyPair_eq_false {p : Segment → Segment → Bool} {ms : List Segment} :
    anyPair p ms = false ↔ ms.Pairwise (fun s tmp => p s tmp = false) := by
  induction ms with
  | nil => simp [anyPair]
  | cons s ms ih => simp [anyPair, ih]

private theorem clean_iff {ms : List Segment} :
    Clean ms ↔ (hasOverlappingSegments ms || hasAdjacentSegments ms) = false := by
  rw [Bool.or_eq_false_iff, hasOverlappingSegments, hasAdjacentSegments, anyPair_eq_false, anyPair_eq_false,
    ← List.pairwise_and_iff]
  rfl

private theorem apart_iff {s tmp : Segment} : Apart s tmp ↔ mergeable s tmp = false ∧ overlapping s tmp = false := by
  simp only [Apart, mergeable, overlapping, decide_eq_false_iff_not, not_or, not_not]
  constructor
  · rintro ⟨hover, hadj⟩
    refine ⟨⟨hadj, ?_⟩, hover⟩
    rw [hover]
    decide
  · rintro ⟨⟨hadj, -⟩, hover⟩
    exact ⟨hover, hadj⟩

/-! ### What a round does -/

private theorem scanRow_cons {s tmp : Segment} {ms : List Segment} (h : Apart s tmp) :
    scanRow s (tmp :: ms) =
      match scanRow s ms with
      | .nothing => .nothing
      | .error => .error
      | .concatenated (s', ms') => .concatenated (s', tmp :: ms') := by
  obtain ⟨hmerge, hover⟩ := apart_iff.1 h
  rw [scanRow, if_neg (by simp [hmerge]), if_neg (by simp [hover])]

private theorem scanRow_eq_nothing {s : Segment} {ms : List Segment} :
    scanRow s ms = .nothing ↔ ∀ tmp ∈ ms, Apart s tmp := by
  induction ms with
  | nil => simp [scanRow]
  | cons tmp ms ih =>
    rw [List.forall_mem_cons, ← ih]
    by_cases hapart : Apart s tmp
    · rw [scanRow_cons hapart, and_iff_right hapart]
      cases scanRow s ms with
      | nothing => simp
      | error => simp
      | concatenated r => simp
    · refine iff_of_false ?_ (fun h => hapart h.1)
      rw [apart_iff] at hapart
      rw [scanRow]
      split
      · simp
      · rename_i hmerge
        rw [if_pos (by simpa [hmerge] using hapart)]
        simp

/-- The loop over `j` merges the segment with one of those behind it and removes that one. -/
private theorem scanRow_concatenated {s s' : Segment} {ms ms' : List Segment}
    (h : scanRow s ms = .concatenated (s', ms')) :
    ∃ tmp, mergeable s tmp = true ∧ s' = s.concat tmp ∧ ms.Perm (tmp :: ms') := by
  induction ms generalizing ms' with
  | nil => cases h
  | cons tmp ms ih =>
    rw [scanRow] at h
    split at h
    · rename_i hmerge
      cases h
      exact ⟨tmp, hmerge, rfl, List.Perm.refl _⟩
    split at h
    · cases h
    split at h
    · cases h
    · cases h
    · rename_i hrow
      cases h
      obtain ⟨tmp', hmerge, hconcat, hperm⟩ := ih hrow
      exact ⟨tmp', hmerge, hconcat, (hperm.cons tmp).trans (List.Perm.swap _ _ _)⟩

/-- Two segments that overlap and cannot be merged are an error. -/
def Torn (s tmp : Segment) : Prop := overlapping s tmp = true ∧ mergeable s tmp = false

private theorem scanRow_error {s : Segment} {ms : List Segment} (h : scanRow s ms = .error) :
    ∃ tmp ∈ ms, Torn s tmp := by
  induction ms with
  | nil => cases h
  | cons tmp ms ih =>
    rw [scanRow] at h
    split at h
    · cases h
    rename_i hmerge
    split at h
    · rename_i hover
      exact ⟨tmp, List.mem_cons_self, hover, Bool.not_eq_true _ ▸ hmerge⟩
    split at h
    · cases h
    · rename_i hrow
      obtain ⟨tmp', hmem, htorn⟩ := ih hrow
      exact ⟨tmp', List.mem_cons_of_mem _ hmem, htorn⟩
    · cases h

private theorem scan_eq_nothing {ms : List Segment} : scan ms = .nothing ↔ ms.Pairwise Apart := by
  induction ms with
  | nil => simp [scan]
  | cons s ms ih =>
    rw [List.pairwise_cons, ← scanRow_eq_nothing, ← ih, scan]
    cases scanRow s ms with
    | error => simp
    | concatenated r => simp
    | nothing =>
      cases scan ms with
      | nothing => simp
      | error => simp
      | concatenated ms' => simp

/-- A round that concatenates replaces two segments of the table by one. -/
private theorem scan_concatenated {ms ms' : List Segment} (h : scan ms = .concatenated ms') :
    ∃ s tmp rest, mergeable s tmp = true ∧ ms.Perm (s :: tmp :: rest) ∧ ms'.Perm (s.concat tmp :: rest) := by
  induction ms generalizing ms' with
  | nil => cases h
  | cons s ms ih =>
    rw [scan] at h
    split at h
    · cases h
    · rename_i hrow
      cases h
      obtain ⟨tmp, hmerge, rfl, hperm⟩ := scanRow_concatenated hrow
      exact ⟨s, tmp, _, hmerge, hperm.cons s, List.Perm.refl _⟩
    · split at h
      · cases h
      · cases h
      · rename_i hscan
        cases h
        obtain ⟨s', tmp, rest, hmerge, hperm, hperm'⟩ := ih hscan
        refine ⟨s', tmp, s :: rest, hmerge, (hperm.cons s).trans ?_, (hperm'.cons s).trans (List.Perm.swap _ _ _)⟩
        exact (List.Perm.swap _ _ _).trans ((List.Perm.swap _ _ _).cons _)

private theorem scan_error {ms : List Segment} (h : scan ms = .error) : ¬ms.Pairwise (fun s tmp => ¬Torn s tmp) := by
  induction ms with
  | nil => cases h
  | cons s ms ih =>
    rw [List.pairwise_cons]
    rintro ⟨hs, hms⟩
    rw [scan] at h
    split at h
    · rename_i hrow
      obtain ⟨tmp, hmem, htorn⟩ := scanRow_error hrow
      exact hs tmp hmem htorn
    · cases h
    · split at h
      · cases h
      · rename_i hscan
        exact ih hscan hms
      · cases h

private theorem length_scan {ms ms' : List Segment} (h : scan ms = .concatenated ms') : ms'.length + 1 = ms.length := by
  obtain ⟨s, tmp, rest, -, hperm, hperm'⟩ := scan_concatenated h
  rw [hperm.length_eq, hperm'.length_eq]
  rfl

/-- A round that goes on has removed a segment or changed nothing. -/
private theorem cleanupRound_inl {ms ms' : List Segment} (h : cleanupRound ms = .inl ms') :
    ms' = ms ∨ ms'.length < ms.length := by
  unfold cleanupRound at h
  split at h
  · split at h
    · cases h
      exact Or.inl rfl
    · cases h
    · rename_i hscan
      cases h
      have := length_scan hscan
      exact Or.inr (by omega)
  · cases h

/-- A round that goes on without a change is one on a stuck table. -/
private theorem cleanupRound_eq_self {ms : List Segment} : cleanupRound ms = .inl ms ↔ Stuck ms := by
  have hstuck : Stuck ms ↔ ¬Clean ms ∧ scan ms = .nothing := by
    rw [scan_eq_nothing]
    constructor
    · rintro ⟨hapart, hadj⟩
      exact ⟨fun hclean => hadj (hclean.imp fun h => h.2), hapart⟩
    · rintro ⟨hclean, hapart⟩
      refine ⟨hapart, fun hadj => hclean ?_⟩
      exact List.pairwise_and_iff.2 ⟨hapart.imp fun h => h.1, hadj⟩
  rw [hstuck, clean_iff, Bool.not_eq_false, cleanupRound]
  split
  · rename_i hcond
    rw [and_iff_right hcond]
    cases hscan : scan ms with
    | nothing => simp
    | error => simp
    | concatenated ms' =>
      refine iff_of_false (fun h => ?_) (by simp)
      cases h
      have := length_scan hscan
      omega
  · rename_i hcond
    simp [hcond]

/-- The loop ends with -1 or with a clean table. -/
private theorem cleanupRound_inr {ms : List Segment} {result : Option (List Segment)}
    (h : cleanupRound ms = .inr result) :
    ∀ ms' ∈ result, ms' = ms ∧ Clean ms' := by
  unfold cleanupRound at h
  split at h
  · split at h
    · cases h
    · cases h
      intro ms' hms'
      cases hms'
    · cases h
  · rename_i hcond
    cases h
    rintro ms' ⟨⟩
    rw [clean_iff, ← Bool.not_eq_true]
    exact ⟨rfl, hcond⟩

/-- `cleanup_segments` ends, with -1 or with a clean table, exactly when its loop comes to no stuck table. -/
private theorem cleanupSegments_ends_iff_reaches (qsort : List Segment → List Segment) (ms : List Segment) :
    (∃ fuel result, cleanupSegments qsort fuel ms = some result ∧ ∀ ms' ∈ result, Clean ms') ↔
      ∀ ms', Reaches cleanupRound (qsort ms) ms' → ¬Stuck ms' := by
  simp only [← cleanupRound_eq_self]
  rw [← exists_ends_iff List.length cleanupRound_inl]
  constructor
  · rintro ⟨fuel, result, hends, -⟩
    exact ⟨result, fuel, hends⟩
  · rintro ⟨result, hends⟩
    obtain ⟨last, -, hlast⟩ := hends.exists_last
    obtain ⟨fuel, hfuel⟩ := hends
    exact ⟨fuel, result, hfuel, fun ms' hms' => (cleanupRound_inr hlast ms' hms').2⟩

/-! ### The three spaces -/

/-- The address spaces of a segment. -/
inductive Space where
  | virt
  | phys
  | ioremap

/-- Where a segment starts in a space. -/
def Space.start : Space → Segment → UInt64
  | .virt, s => s.entry.mz.addr64
  | .phys, s => s.entry.mz.physAddr
  | .ioremap, s => s.entry.mz.ioremapAddr

/-- Two segments overlap in a space. -/
def Meets (sp : Space) (s tmp : Segment) : Prop :=
  rangesOverlap (sp.start s) s.entry.mz.len (sp.start tmp) tmp.entry.mz.len = true

/-- Two segments are adjacent in a space. -/
def Abuts (sp : Space) (s tmp : Segment) : Prop :=
  rangesAdjacent (sp.start s) s.entry.mz.len (sp.start tmp) tmp.entry.mz.len = true

section

variable {sp : Space} {s tmp : Segment}

instance decidableMeets : Decidable (Meets sp s tmp) := inferInstanceAs (Decidable (_ = true))

instance decidableAbuts : Decidable (Abuts sp s tmp) := inferInstanceAs (Decidable (_ = true))

private theorem forall_space {P : Space → Prop} : (∀ sp, P sp) ↔ P .virt ∧ P .phys ∧ P .ioremap :=
  ⟨fun h => ⟨h _, h _, h _⟩, fun h sp => by cases sp; exacts [h.1, h.2.1, h.2.2]⟩

private theorem exists_space {P : Space → Prop} : (∃ sp, P sp) ↔ P .virt ∨ P .phys ∨ P .ioremap := by
  constructor
  · rintro ⟨sp, h⟩
    cases sp
    exacts [Or.inl h, Or.inr (Or.inl h), Or.inr (Or.inr h)]
  · rintro (h | h | h)
    exacts [⟨_, h⟩, ⟨_, h⟩, ⟨_, h⟩]

private theorem mergeable_iff : mergeable s tmp = true ↔ (∀ sp, Abuts sp s tmp) ∨ ∀ sp, Meets sp s tmp := by
  simp only [mergeable, adjacent, overlap, inSpaces, Spaces.full, Spaces.mk.injEq, decide_eq_true_eq, forall_space,
    Abuts, Meets, Space.start]

private theorem overlapping_iff : overlapping s tmp = true ↔ ∃ sp, Meets sp s tmp := by
  simp only [overlapping, overlap, inSpaces, Spaces.none, ne_eq, Spaces.mk.injEq, decide_eq_true_eq, exists_space,
    Meets, Space.start, not_and_or, Bool.not_eq_false]

private theorem adjoining_iff : adjoining s tmp = true ↔ (∃ sp, Abuts sp s tmp) ∧ ¬Abuts .ioremap s tmp := by
  simp only [adjoining, adjacent, inSpaces, Bool.and_eq_true, Bool.or_eq_true, Bool.not_eq_true', exists_space, Abuts,
    Space.start, Bool.not_eq_true]
  constructor
  · rintro ⟨h | h, hioremap⟩
    exacts [⟨Or.inl h, hioremap⟩, ⟨Or.inr (Or.inl h), hioremap⟩]
  · rintro ⟨h | h | h, hioremap⟩
    exacts [⟨Or.inl h, hioremap⟩, ⟨Or.inr h, hioremap⟩, absurd (h.symm.trans hioremap) (by decide)]

private theorem meets_comm : Meets sp s tmp ↔ Meets sp tmp s := by
  unfold Meets rangesOverlap
  rw [Bool.or_comm]

private theorem abuts_comm : Abuts sp s tmp ↔ Abuts sp tmp s := by
  unfold Abuts rangesAdjacent
  rw [Bool.or_comm]

private theorem adjoining_comm (h : adjoining s tmp = false) : adjoining tmp s = false := by
  rw [Bool.eq_false_iff, ne_eq, adjoining_iff] at h ⊢
  simpa only [abuts_comm (s := tmp)] using h

private theorem torn_comm (h : Torn s tmp) : Torn tmp s := by
  simpa only [Torn, Bool.eq_false_iff, ne_eq, overlapping_iff, mergeable_iff, abuts_comm (s := tmp),
    meets_comm (s := tmp)] using h

end

/-! ### Segments of devices -/

/-- A segment that is not empty and ends below 2^64 in each space. -/
structure Regular (s : Segment) : Prop where
  pos : 0 < s.entry.mz.len.toNat
  bounded : ∀ sp : Space, (sp.start s).toNat + s.entry.mz.len.toNat < 2 ^ 64

/-- Two segments whose physical and ioremap addresses have the same distances from the virtual ones. -/
def SameDevice (s tmp : Segment) : Prop :=
  ∀ sp : Space,
    ((sp.start s).toNat : Int) - (Space.virt.start s).toNat = (sp.start tmp).toNat - (Space.virt.start tmp).toNat

/-- Two segments neither overlap nor are adjacent in ioremap space. -/
def FarApart (s tmp : Segment) : Prop := ¬Meets .ioremap s tmp ∧ ¬Abuts .ioremap s tmp

/-- A table of the segments of some devices, which lie apart from each other in ioremap space. -/
structure Devices (ms : List Segment) : Prop where
  regular : ∀ s ∈ ms, Regular s
  devices : ms.Pairwise (fun s tmp => SameDevice s tmp ∨ FarApart s tmp)

section

variable {s tmp u : Segment}

private theorem toNat_end {start len : UInt64} (h : start.toNat + len.toNat < 2 ^ 64) :
    (start + len).toNat = start.toNat + len.toNat := by
  rw [UInt64.toNat_add, Nat.mod_eq_of_lt h]

private theorem Regular.meets_iff (hs : Regular s) (ht : Regular tmp) (sp : Space) :
    Meets sp s tmp ↔
      ((sp.start tmp).toNat ≤ (sp.start s).toNat ∧
        (sp.start s).toNat < (sp.start tmp).toNat + tmp.entry.mz.len.toNat) ∨
      ((sp.start s).toNat ≤ (sp.start tmp).toNat ∧ (sp.start tmp).toNat < (sp.start s).toNat + s.entry.mz.len.toNat) := by
  simp only [Meets, rangesOverlap, Bool.or_eq_true, Bool.and_eq_true, decide_eq_true_eq, UInt64.le_iff_toNat_le,
    UInt64.lt_iff_toNat_lt, toNat_end (hs.bounded sp), toNat_end (ht.bounded sp)]

private theorem Regular.abuts_iff (hs : Regular s) (ht : Regular tmp) (sp : Space) :
    Abuts sp s tmp ↔
      (sp.start s).toNat = (sp.start tmp).toNat + tmp.entry.mz.len.toNat ∨
      (sp.start tmp).toNat = (sp.start s).toNat + s.entry.mz.len.toNat := by
  simp only [Abuts, rangesAdjacent, Bool.or_eq_true, beq_iff_eq, ← UInt64.toNat_inj, toNat_end (hs.bounded sp),
    toNat_end (ht.bounded sp)]

private theorem SameDevice.symm (h : SameDevice s tmp) : SameDevice tmp s := fun sp => (h sp).symm

private theorem SameDevice.trans (h : SameDevice s tmp) (h' : SameDevice tmp u) : SameDevice s u :=
  fun sp => (h sp).trans (h' sp)

/-- Segments of one device overlap in all spaces or in none. -/
private theorem SameDevice.meets_iff (h : SameDevice s tmp) (hs : Regular s) (ht : Regular tmp) (sp sp' : Space) :
    Meets sp s tmp ↔ Meets sp' s tmp := by
  have hsp := h sp
  have hsp' := h sp'
  rw [hs.meets_iff ht, hs.meets_iff ht]
  omega

/-- Segments of one device are adjacent in all spaces or in none. -/
private theorem SameDevice.abuts_iff (h : SameDevice s tmp) (hs : Regular s) (ht : Regular tmp) (sp sp' : Space) :
    Abuts sp s tmp ↔ Abuts sp' s tmp := by
  have hsp := h sp
  have hsp' := h sp'
  rw [hs.abuts_iff ht, hs.abuts_iff ht]
  omega

private theorem SameDevice.not_torn (h : SameDevice s tmp) (hs : Regular s) (ht : Regular tmp) : ¬Torn s tmp := by
  rintro ⟨hover, hmerge⟩
  obtain ⟨sp, hmeets⟩ := overlapping_iff.1 hover
  rw [mergeable_iff.2 (Or.inr fun sp' => (h.meets_iff hs ht sp sp').1 hmeets)] at hmerge
  cases hmerge

private theorem SameDevice.not_adjoining (h : SameDevice s tmp) (hs : Regular s) (ht : Regular tmp) :
    adjoining s tmp = false := by
  rw [Bool.eq_false_iff, ne_eq, adjoining_iff]
  rintro ⟨⟨sp, habuts⟩, hioremap⟩
  exact hioremap ((h.abuts_iff hs ht sp .ioremap).1 habuts)

private theorem FarApart.not_mergeable (h : FarApart s tmp) : mergeable s tmp = false := by
  rw [Bool.eq_false_iff, ne_eq, mergeable_iff]
  rintro (hall | hall)
  exacts [h.2 (hall _), h.1 (hall _)]

private theorem FarApart.torn_iff (h : FarApart s tmp) : Torn s tmp ↔ ∃ sp, Meets sp s tmp := by
  rw [Torn, overlapping_iff, and_iff_left h.not_mergeable]

private theorem FarApart.adjoining_eq_false_iff (h : FarApart s tmp) :
    adjoining s tmp = false ↔ ∀ sp, ¬Abuts sp s tmp := by
  rw [Bool.eq_false_iff, ne_eq, adjoining_iff, and_iff_left h.2, not_exists]

end

/-! ### Merging two segments of a device -/

private theorem toNat_rteMin (a b : UInt64) : (rteMin a b).toNat = min a.toNat b.toNat := by
  unfold rteMin
  split
  · rename_i h
    have := UInt64.lt_iff_toNat_lt.1 h
    omega
  · rename_i h
    have : ¬a.toNat < b.toNat := fun hlt => h (UInt64.lt_iff_toNat_lt.2 hlt)
    omega

private theorem toNat_rteMax (a b : UInt64) : (rteMax a b).toNat = max a.toNat b.toNat := by
  unfold rteMax
  split
  · rename_i h
    have := UInt64.lt_iff_toNat_lt.1 h
    omega
  · rename_i h
    have : ¬b.toNat < a.toNat := fun hlt => h (UInt64.lt_iff_toNat_lt.2 hlt)
    omega

private theorem start_concat (s tmp : Segment) (sp : Space) :
    (sp.start (s.concat tmp)).toNat = min (sp.start s).toNat (sp.start tmp).toNat := by
  cases sp
  all_goals exact toNat_rteMin _ _

section

variable {s tmp u : Segment} (hs : Regular s) (ht : Regular tmp) (hdev : SameDevice s tmp)
include hs ht hdev

/-- The merged segment ends where the later one of the two does. -/
private theorem end_concat (sp : Space) :
    (sp.start (s.concat tmp)).toNat + (s.concat tmp).entry.mz.len.toNat =
      max ((sp.start s).toNat + s.entry.mz.len.toNat) ((sp.start tmp).toNat + tmp.entry.mz.len.toNat) := by
  have hvirt1 := hs.bounded .virt
  have hvirt2 := ht.bounded .virt
  have hlen : (s.concat tmp).entry.mz.len.toNat =
      max ((Space.virt.start s).toNat + s.entry.mz.len.toNat) ((Space.virt.start tmp).toNat + tmp.entry.mz.len.toNat) -
        min (Space.virt.start s).toNat (Space.virt.start tmp).toNat := by
    simp only [Space.start] at hvirt1 hvirt2 ⊢
    simp only [Segment.concat]
    rw [UInt64.toNat_sub_of_le, toNat_rteMax, toNat_rteMin, toNat_end hvirt1, toNat_end hvirt2]
    rw [UInt64.le_iff_toNat_le, toNat_rteMax, toNat_rteMin, toNat_end hvirt1, toNat_end hvirt2]
    omega
  have hsp := hdev sp
  rw [start_concat, hlen]
  omega

private theorem Regular.concat : Regular (s.concat tmp) := by
  have hpos := hs.pos
  refine ⟨?_, fun sp => ?_⟩
  · have hend := end_concat hs ht hdev .virt
    rw [start_concat] at hend
    omega
  · have h1 := hs.bounded sp
    have h2 := ht.bounded sp
    rw [end_concat hs ht hdev]
    omega

omit hs ht in
private theorem SameDevice.concat : SameDevice (s.concat tmp) s := by
  intro sp
  have hsp := hdev sp
  rw [start_concat, start_concat]
  omega

variable (hu : Regular u) (hmerge : mergeable s tmp = true)
include hu hmerge

/-- The merged segment overlaps what one of the two overlaps. -/
private theorem meets_concat (sp : Space) : Meets sp (s.concat tmp) u ↔ Meets sp s u ∨ Meets sp tmp u := by
  have htouch : Abuts sp s tmp ∨ Meets sp s tmp := (mergeable_iff.1 hmerge).imp (fun h => h sp) fun h => h sp
  have hpos := hs.pos
  have hpos' := ht.pos
  have hend := end_concat hs ht hdev sp
  have hstart := start_concat s tmp sp
  rw [hs.abuts_iff ht, hs.meets_iff ht] at htouch
  rw [(hs.concat ht hdev).meets_iff hu, hs.meets_iff hu, ht.meets_iff hu]
  omega

/-- The merged segment is adjacent to what one of the two is adjacent to, unless that overlaps one of them. -/
private theorem abuts_concat {sp : Space} (hsu : ¬Meets sp s u) (htu : ¬Meets sp tmp u) :
    Abuts sp (s.concat tmp) u ↔ Abuts sp s u ∨ Abuts sp tmp u := by
  have htouch : Abuts sp s tmp ∨ Meets sp s tmp := (mergeable_iff.1 hmerge).imp (fun h => h sp) fun h => h sp
  have hpos := hs.pos
  have hpos' := ht.pos
  have hpos'' := hu.pos
  have hend := end_concat hs ht hdev sp
  have hstart := start_concat s tmp sp
  rw [hs.abuts_iff ht, hs.meets_iff ht] at htouch
  rw [hs.meets_iff hu] at hsu
  rw [ht.meets_iff hu] at htu
  rw [(hs.concat ht hdev).abuts_iff hu, hs.abuts_iff hu, ht.abuts_iff hu]
  omega

private theorem FarApart.concat (hsu : FarApart s u) (htu : FarApart tmp u) : FarApart (s.concat tmp) u := by
  refine ⟨fun h => ?_, fun h => ?_⟩
  · exact ((meets_concat hs ht hdev hu hmerge _).1 h).elim hsu.1 htu.1
  · exact ((abuts_concat hs ht hdev hu hmerge hsu.1 htu.1).1 h).elim hsu.2 htu.2

/-- The merged segment lies to any other segment of the table as the two did. -/
private theorem concat_pair (hsu : SameDevice s u ∨ FarApart s u) (htu : SameDevice tmp u ∨ FarApart tmp u) :
    (SameDevice (s.concat tmp) u ∨ FarApart (s.concat tmp) u) ∧
    (¬Torn (s.concat tmp) u ↔ ¬Torn s u ∧ ¬Torn tmp u) ∧
    (¬Torn s u → ¬Torn tmp u →
      (adjoining (s.concat tmp) u = false ↔ adjoining s u = false ∧ adjoining tmp u = false)) := by
  have hc := hs.concat ht hdev
  by_cases hsame : SameDevice s u
  · have hsame' := hdev.symm.trans hsame
    have hcsame := hdev.concat.trans hsame
    refine ⟨Or.inl hcsame, iff_of_true (hcsame.not_torn hc hu) ⟨hsame.not_torn hs hu, hsame'.not_torn ht hu⟩,
      fun _ _ => iff_of_true (hcsame.not_adjoining hc hu) ⟨hsame.not_adjoining hs hu, hsame'.not_adjoining ht hu⟩⟩
  · have hfar := hsu.resolve_left hsame
    have hfar' := htu.resolve_left fun h => hsame (hdev.trans h)
    have hcfar := hfar.concat hs ht hdev hu hmerge hfar'
    refine ⟨Or.inr hcfar, ?_, ?_⟩
    · rw [hcfar.torn_iff, hfar.torn_iff, hfar'.torn_iff, ← not_or, ← exists_or]
      simp only [meets_concat hs ht hdev hu hmerge]
    · intro hnot hnot'
      rw [hfar.torn_iff, not_exists] at hnot
      rw [hfar'.torn_iff, not_exists] at hnot'
      rw [hcfar.adjoining_eq_false_iff, hfar.adjoining_eq_false_iff, hfar'.adjoining_eq_false_iff, ← forall_and]
      refine forall_congr' fun sp => ?_
      rw [abuts_concat hs ht hdev hu hmerge (hnot sp) (hnot' sp), not_or]

end

/-! ### The table that is given -/

/-- No two segments overlap that cannot be merged. -/
def NoneTorn (ms : List Segment) : Prop := ms.Pairwise (fun s tmp => ¬Torn s tmp)

/-- No two segments are adjacent virtually or physically but not in ioremap space. -/
def NoneAdjoining (ms : List Segment) : Prop := ms.Pairwise (fun s tmp => adjoining s tmp = false)

instance decidableNoneAdjoining (ms : List Segment) : Decidable (NoneAdjoining ms) :=
  inferInstanceAs (Decidable (ms.Pairwise _))

/-- Nothing can be merged, or everything that can be is of one device. -/
def Tame (ms : List Segment) : Prop := ms.Pairwise (fun s tmp => mergeable s tmp = false) ∨ Devices ms

section

variable {ms ms' : List Segment}

private theorem noneTorn_perm (h : ms.Perm ms') : NoneTorn ms ↔ NoneTorn ms' :=
  h.pairwise_iff fun hnot htorn => hnot (torn_comm htorn)

private theorem noneAdjoining_perm (h : ms.Perm ms') : NoneAdjoining ms ↔ NoneAdjoining ms' :=
  h.pairwise_iff adjoining_comm

private theorem devices_perm (h : ms.Perm ms') (hms : Devices ms) : Devices ms' := by
  refine ⟨fun s hs => hms.regular s (h.mem_iff.2 hs), (h.pairwise_iff ?_).1 hms.devices⟩
  rintro s tmp (hsame | hfar)
  · exact Or.inl hsame.symm
  · exact Or.inr ⟨fun hmeets => hfar.1 (meets_comm.1 hmeets), fun habuts => hfar.2 (abuts_comm.1 habuts)⟩

private theorem mergeable_comm {s tmp : Segment} (h : mergeable s tmp = false) : mergeable tmp s = false := by
  rw [Bool.eq_false_iff, ne_eq, mergeable_iff] at h ⊢
  simpa only [abuts_comm (s := tmp), meets_comm (s := tmp)] using h

private theorem tame_perm (h : ms.Perm ms') (hms : Tame ms) : Tame ms' :=
  hms.imp (h.pairwise_iff mergeable_comm).1 (devices_perm h)

private theorem pairwise_merge {R : Segment → Segment → Prop} {c s tmp : Segment} {rest : List Segment} (hst : R s tmp)
    (hc : ∀ u ∈ rest, R c u ↔ R s u ∧ R tmp u) : (c :: rest).Pairwise R ↔ (s :: tmp :: rest).Pairwise R := by
  simp only [List.pairwise_cons, List.forall_mem_cons]
  constructor
  · rintro ⟨hcu, hrest⟩
    exact ⟨⟨hst, fun u hu => ((hc u hu).1 (hcu u hu)).1⟩, fun u hu => ((hc u hu).1 (hcu u hu)).2, hrest⟩
  · rintro ⟨⟨-, hsu⟩, htu, hrest⟩
    exact ⟨fun u hu => (hc u hu).2 ⟨hsu u hu, htu u hu⟩, hrest⟩

/-- A table, compared with the one that the loop started from. -/
private structure Kept (ms ms' : List Segment) : Prop where
  tame : Tame ms'
  torn : NoneTorn ms' ↔ NoneTorn ms
  adjoining : NoneTorn ms → (NoneAdjoining ms' ↔ NoneAdjoining ms)

/-- A merge in a table of devices. -/
private theorem devices_concat {s tmp : Segment} {rest : List Segment} (hms : Devices (s :: tmp :: rest))
    (hmerge : mergeable s tmp = true) : Kept (s :: tmp :: rest) (s.concat tmp :: rest) := by
  obtain ⟨hregular, hdevices⟩ := hms
  simp only [List.forall_mem_cons] at hregular
  obtain ⟨hs, ht, hrest⟩ := hregular
  simp only [List.pairwise_cons, List.forall_mem_cons] at hdevices
  obtain ⟨⟨hst, hsu⟩, htu, hpairs⟩ := hdevices
  have hdev : SameDevice s tmp := hst.resolve_right fun hfar => by
    rw [hfar.not_mergeable] at hmerge
    cases hmerge
  have hpair := fun u hu => concat_pair hs ht hdev (hrest u hu) hmerge (hsu u hu) (htu u hu)
  refine ⟨Or.inr ⟨?_, ?_⟩, ?_, fun hnot => ?_⟩
  · exact List.forall_mem_cons.2 ⟨hs.concat ht hdev, hrest⟩
  · exact List.pairwise_cons.2 ⟨fun u hu => (hpair u hu).1, hpairs⟩
  · exact pairwise_merge (hdev.not_torn hs ht) fun u hu => (hpair u hu).2.1
  · simp only [NoneTorn, List.pairwise_cons, List.forall_mem_cons] at hnot
    exact pairwise_merge (hdev.not_adjoining hs ht) fun u hu => (hpair u hu).2.2 (hnot.1.2 u hu) (hnot.2.1 u hu)

/-- A round keeps what decides about the end of the loop. -/
private theorem cleanupRound_kept (hms : Tame ms) (h : cleanupRound ms = .inl ms') : Kept ms ms' := by
  rw [cleanupRound] at h
  split at h
  · cases hscan : scan ms with
    | nothing =>
      rw [hscan] at h
      cases h
      exact ⟨hms, Iff.rfl, fun _ => Iff.rfl⟩
    | error =>
      rw [hscan] at h
      cases h
    | concatenated ms'' =>
      rw [hscan] at h
      cases h
      obtain ⟨s, tmp, rest, hmerge, hperm, hperm'⟩ := scan_concatenated hscan
      have hdevices : Devices (s :: tmp :: rest) := by
        refine (tame_perm hperm hms).resolve_left fun hnone => ?_
        rw [(List.pairwise_cons.1 hnone).1 tmp List.mem_cons_self] at hmerge
        cases hmerge
      have hkept := devices_concat hdevices hmerge
      exact ⟨tame_perm hperm'.symm hkept.tame,
        (noneTorn_perm hperm').trans (hkept.torn.trans (noneTorn_perm hperm).symm),
        fun hnot => (noneAdjoining_perm hperm').trans
          ((hkept.adjoining ((noneTorn_perm hperm).1 hnot)).trans (noneAdjoining_perm hperm).symm)⟩
  · cases h

private theorem reaches_kept (hms : Tame ms) (h : Reaches cleanupRound ms ms') : Kept ms ms' := by
  refine h.invariant (I := Kept ms) (fun hkept hround => ?_) ⟨hms, Iff.rfl, fun _ => Iff.rfl⟩
  have hnext := cleanupRound_kept hkept.tame hround
  exact ⟨hnext.tame, hnext.torn.trans hkept.torn,
    fun hnot => (hnext.adjoining (hkept.torn.2 hnot)).trans (hkept.adjoining hnot)⟩

/-- Segments that can be merged whenever they overlap give no error. -/
private theorem cleanupRound_ne_none (hms : NoneTorn ms) : cleanupRound ms ≠ .inr none := by
  rw [cleanupRound]
  split
  · cases hscan : scan ms with
    | nothing => simp
    | error => exact absurd hms (scan_error hscan)
    | concatenated ms' => simp
  · simp

private theorem noneTorn_of_apart (h : ms.Pairwise Apart) : NoneTorn ms :=
  h.imp fun hapart htorn => absurd (hapart.1.symm.trans htorn.1) (by decide)

end

/-- A segment of 0x2000 bytes. -/
def segmentAt (virt phys ioremap : UInt64) : Segment where
  entry := { mz := { addr64 := virt, physAddr := phys, ioremapAddr := ioremap, len := 0x2000 } }

/-- Three segments of two devices, of which the first two overlap. -/
def twoDevices : List Segment :=
  [segmentAt 0x7f0000000000 0x100000000 0x200000000, segmentAt 0x7f0000001000 0x100001000 0x200001000,
    segmentAt 0x7f0000008000 0x100008000 0x300000000]

/-- The segments of one device are cleaned up: the loop ends with a clean table, never with -1. -/
theorem cleanupSegments_oneDevice {qsort : List Segment → List Segment} {ms : List Segment}
    (hqsort : (qsort ms).Perm ms) (hregular : ∀ s ∈ ms, Regular s) (hdev : ms.Pairwise SameDevice) :
    ∃ fuel ms', cleanupSegments qsort fuel ms = some (some ms') ∧ Clean ms' := by
  have hms : Tame (qsort ms) := tame_perm hqsort.symm (Or.inr ⟨hregular, hdev.imp Or.inl⟩)
  have hnot : NoneTorn (qsort ms) := (noneTorn_perm hqsort).2
    (hdev.imp_of_mem fun hs ht h => h.not_torn (hregular _ hs) (hregular _ ht))
  have hadj : NoneAdjoining (qsort ms) := (noneAdjoining_perm hqsort).2
    (hdev.imp_of_mem fun hs ht h => h.not_adjoining (hregular _ hs) (hregular _ ht))
  obtain ⟨fuel, result, hends, hclean⟩ := (cleanupSegments_ends_iff_reaches qsort ms).2 fun ms' hreach hstuck =>
    hstuck.adjoining (((reaches_kept hms hreach).adjoining hnot).2 hadj)
  cases result with
  | some ms' => exact ⟨fuel, ms', hends, hclean ms' rfl⟩
  | none =>
    obtain ⟨last, hreach, hlast⟩ := Ends.exists_last ⟨fuel, hends⟩
    exact absurd hlast (cleanupRound_ne_none ((reaches_kept hms hreach).torn.2 hnot))

end Segment

end SoftPatchPanel.Hostshmem

import Mathlib.Data.List.SplitBy
import Mathlib.Data.Nat.Notation
import Mathlib.Tactic.Ring

/-!
# Pieces of files laid end to end

A list of pieces of files, each a file, an offset in it and a length, read as one device: `locate` walks the list
from its head and finds the file and offset of a byte of the device.  What lies before or behind a byte does not
matter (`locate_append_left`, `locate_append_right`), and two neighbouring pieces of one file that continue each
other may be merged (`locate_merge`).  `SameBytes` is equality of the devices.

`coalesce` merges the maximal runs of pieces that continue each other.  `coalesce_concat_of_continues` and
`coalesce_concat_of_not` compute it from the left, one piece at a time.
-/

namespace Lib

/-- `len` bytes of `file` from `offset` on. -/
structure Piece (φ : Type) where
  file : φ
  offset : UInt64
  len : Nat
deriving DecidableEq

/-- The number of bytes of a list of pieces. -/
def total {φ : Type} (l : List (Piece φ)) : Nat := (l.map Piece.len).sum

@[simp] theorem total_nil {φ : Type} : total ([] : List (Piece φ)) = 0 := rfl

@[simp] theorem total_cons {φ : Type} (s : Piece φ) (l : List (Piece φ)) : total (s :: l) = s.len + total l := by
  simp [total]

@[simp] theorem total_append {φ : Type} (l r : List (Piece φ)) : total (l ++ r) = total l + total r := by
  simp [total]

/-- The file and offset of byte `o` of the device. -/
def locate {φ : Type} : List (Piece φ) → Nat → Option (φ × UInt64)
  | [], _ => none
  | s :: l, o => if o < s.len then some (s.file, s.offset + UInt64.ofNat o) else locate l (o - s.len)

theorem locate_cons_of_lt {φ : Type} {s : Piece φ} (l : List (Piece φ)) {o : Nat} (h : o < s.len) :
    locate (s :: l) o = some (s.file, s.offset + UInt64.ofNat o) := by
  rw [locate, ite_cond_eq_true _ _ (eq_true h)]

theorem locate_cons_of_not_lt {φ : Type} {s : Piece φ} (l : List (Piece φ)) {o : Nat} (h : ¬o < s.len) :
    locate (s :: l) o = locate l (o - s.len) := by
  rw [locate, ite_cond_eq_false _ _ (eq_false h)]

theorem locate_append_left {φ : Type} {l : List (Piece φ)} (r : List (Piece φ)) {o : Nat} (h : o < total l) :
    locate (l ++ r) o = locate l o := by
  induction l generalizing o with
  | nil => simp at h
  | cons s l ih =>
    simp only [List.cons_append, locate]
    split
    · rfl
    · rw [total_cons] at h
      exact ih (by omega)

theorem locate_append_right {φ : Type} (l r : List (Piece φ)) (o : Nat) :
    locate (l ++ r) (total l + o) = locate r o := by
  induction l with
  | nil => simp
  | cons s l ih =>
    rw [List.cons_append, total_cons, locate_cons_of_not_lt _ (by omega),
      show s.len + total l + o - s.len = total l + o by omega, ih]

/-- Two lists of pieces make up the same device. -/
def SameBytes {φ : Type} (l r : List (Piece φ)) : Prop := total l = total r ∧ ∀ o, locate l o = locate r o

theorem SameBytes.refl {φ : Type} (l : List (Piece φ)) : SameBytes l l := ⟨rfl, fun _ => rfl⟩

theorem SameBytes.trans {φ : Type} {l r t : List (Piece φ)} (h₁ : SameBytes l r) (h₂ : SameBytes r t) :
    SameBytes l t :=
  ⟨h₁.1.trans h₂.1, fun o => (h₁.2 o).trans (h₂.2 o)⟩

theorem SameBytes.append_right {φ : Type} {l r : List (Piece φ)} (h : SameBytes l r) (t : List (Piece φ)) :
    SameBytes (l ++ t) (r ++ t) := by
  refine ⟨by rw [total_append, total_append, h.1], fun o => ?_⟩
  by_cases ho : o < total l
  · rw [locate_append_left t ho, locate_append_left t (by rw [← h.1]; exact ho), h.2]
  · obtain ⟨k, rfl⟩ : ∃ k, o = total l + k := ⟨o - total l, by omega⟩
    rw [locate_append_right, h.1, locate_append_right]

/-- A piece that continues the one before it may be merged into it. -/
theorem locate_merge {φ : Type} (l r : List (Piece φ)) (f : φ) (a : UInt64) (m n o : Nat) :
    locate (l ++ ⟨f, a, m + n⟩ :: r) o = locate (l ++ ⟨f, a, m⟩ :: ⟨f, a + UInt64.ofNat m, n⟩ :: r) o := by
  induction l generalizing o with
  | nil =>
    simp only [List.nil_append]
    by_cases h₁ : o < m
    · rw [locate_cons_of_lt _ (by simp only; omega), locate_cons_of_lt _ h₁]
    · rw [locate_cons_of_not_lt (s := ⟨f, a, m⟩) _ h₁]
      by_cases h₂ : o < m + n
      · rw [locate_cons_of_lt _ h₂, locate_cons_of_lt _ (by simp only; omega)]
        -- the second piece starts `m` bytes after the first
        have ho : o = m + (o - m) := by omega
        conv => lhs; rw [ho, UInt64.ofNat_add, ← UInt64.add_assoc]
      · rw [locate_cons_of_not_lt _ h₂, locate_cons_of_not_lt _ (by simp only; omega), Nat.sub_add_eq]
  | cons s l ih =>
    simp only [List.cons_append, locate, ih]

theorem sameBytes_merge {φ : Type} (l : List (Piece φ)) (f : φ) (a : UInt64) (m n : Nat) :
    SameBytes (l ++ [⟨f, a, m + n⟩]) (l ++ [⟨f, a, m⟩] ++ [⟨f, a + UInt64.ofNat m, n⟩]) := by
  refine ⟨by simp, fun o => ?_⟩
  rw [locate_merge, List.append_assoc]
  rfl

/-! ### Maximal runs -/

section

variable {φ : Type}

/-- A run of pieces as one piece. -/
def joined : List (Piece φ) → Option (Piece φ)
  | [] => none
  | s :: g => some ⟨s.file, s.offset, total (s :: g)⟩

private theorem filterMap_joined_cons (s : Piece φ) (g : List (Piece φ)) (rs : List (List (Piece φ))) :
    ((s :: g) :: rs).filterMap joined = ⟨s.file, s.offset, total (s :: g)⟩ :: rs.filterMap joined := by
  simp [joined]

variable [DecidableEq φ]

/-- `b` starts in the same file where `a` ends. -/
def Piece.continues (a b : Piece φ) : Bool := a.file = b.file ∧ a.offset + UInt64.ofNat a.len = b.offset

/-- The pieces with each maximal run of pieces that continue each other as one piece. -/
def coalesce (l : List (Piece φ)) : List (Piece φ) := (l.splitBy Piece.continues).filterMap joined

@[simp] theorem coalesce_nil : coalesce ([] : List (Piece φ)) = [] := rfl

/-- A run ends where its last piece ends. -/
private theorem run_end {s z : Piece φ} {g : List (Piece φ)} (hg : (s :: g).IsChain (fun a b => a.continues b))
    (hz : z ∈ (s :: g).getLast?) :
    s.file = z.file ∧ s.offset + UInt64.ofNat (total (s :: g)) = z.offset + UInt64.ofNat z.len := by
  induction g generalizing s with
  | nil =>
    cases hz
    simp
  | cons t g ih =>
    rw [List.isChain_cons_cons] at hg
    rw [List.getLast?_cons_cons] at hz
    obtain ⟨hfile, hend⟩ := ih hg.2 hz
    have hst := hg.1
    simp only [Piece.continues, decide_eq_true_eq] at hst
    refine ⟨hst.1.trans hfile, ?_⟩
    rw [total_cons, UInt64.ofNat_add, ← UInt64.add_assoc, hst.2, hend]

private theorem splitBy_concat_of_rel {α : Type} {r : α → α → Bool} {l g : List α} {rs : List (List α)} {z a : α}
    (h : l.splitBy r = rs ++ [g]) (hz : z ∈ g.getLast?) (hr : r z a) :
    (l ++ [a]).splitBy r = rs ++ [g ++ [a]] := by
  obtain ⟨hl, hnil, hchain, hacross⟩ := List.splitBy_eq_iff.1 h
  have hg : g ≠ [] := fun h0 => hnil (by simp [h0])
  rw [List.splitBy_eq_iff]
  refine ⟨by rw [hl]; simp, ?_, fun m hm => ?_, ?_⟩
  · intro hmem
    rcases List.mem_append.1 hmem with hmem | hmem
    · exact hnil (List.mem_append_left _ hmem)
    · simp at hmem
  · rcases List.mem_append.1 hm with hm | hm
    · exact hchain m (List.mem_append_left _ hm)
    · rw [List.mem_singleton.1 hm, List.isChain_append]
      refine ⟨hchain g (by simp), List.isChain_singleton a, fun x hx y hy => ?_⟩
      cases hy
      rw [Option.mem_unique hx hz]
      exact hr
  · -- the run before still does not continue into this one
    rw [List.isChain_append] at hacross ⊢
    refine ⟨hacross.1, List.isChain_singleton _, fun x hx y hy => ?_⟩
    cases hy
    obtain ⟨hxne, hgne, hlast⟩ := hacross.2.2 x hx g rfl
    exact ⟨hxne, by simp, by rw [List.head_append_of_ne_nil hgne]; exact hlast⟩

/-- The last piece of `coalesce l` comes from the last run of `l`. -/
private theorem last_run {l R : List (Piece φ)} {y : Piece φ} (h : coalesce l = R ++ [y]) :
    ∃ rs s g, l.splitBy Piece.continues = rs ++ [s :: g] ∧ rs.filterMap joined = R ∧
      y = ⟨s.file, s.offset, total (s :: g)⟩ := by
  unfold coalesce at h
  rcases List.eq_nil_or_concat' (l.splitBy Piece.continues) with hnil | ⟨rs, g, hrs⟩
  · rw [hnil] at h
    simp at h
  · cases g with
    | nil => exact absurd (by rw [hrs]; simp) (List.nil_notMem_splitBy Piece.continues l)
    | cons s g =>
      rw [hrs, List.filterMap_append, filterMap_joined_cons, List.filterMap_nil] at h
      obtain ⟨h1, h2⟩ := List.append_inj' h rfl
      exact ⟨rs, s, g, hrs, h1, (List.singleton_inj.1 h2).symm⟩

theorem coalesce_ne_nil {l : List (Piece φ)} (h : l ≠ []) : coalesce l ≠ [] := by
  unfold coalesce
  cases hsplit : l.splitBy Piece.continues with
  | nil => exact absurd (List.splitBy_eq_nil.1 hsplit) h
  | cons g rs =>
    cases g with
    | nil => exact absurd (by rw [hsplit]; simp) (List.nil_notMem_splitBy Piece.continues l)
    | cons s g => simp [filterMap_joined_cons]

theorem pos_of_mem_coalesce {l : List (Piece φ)} (h : ∀ s ∈ l, 0 < s.len) {y : Piece φ} (hy : y ∈ coalesce l) :
    0 < y.len := by
  obtain ⟨g, hg, hjoin⟩ := List.mem_filterMap.1 hy
  cases g with
  | nil => cases hjoin
  | cons s g =>
    cases hjoin
    have hs : s ∈ l := by
      rw [← List.flatten_splitBy Piece.continues l]
      exact List.mem_flatten.2 ⟨s :: g, hg, by simp⟩
    have := h s hs
    simp only [total_cons]
    omega

/-- What continues the last run continues its last piece. -/
theorem continues_last_iff {l R : List (Piece φ)} {y z : Piece φ} (h : coalesce l = R ++ [y]) (hz : z ∈ l.getLast?)
    (x : Piece φ) : y.continues x ↔ z.continues x := by
  obtain ⟨rs, s, g, hsplit, -, rfl⟩ := last_run h
  obtain ⟨hl, -, hchain, -⟩ := List.splitBy_eq_iff.1 hsplit
  have hzg : z ∈ (s :: g).getLast? := by
    rw [hl] at hz
    simpa using hz
  obtain ⟨hfile, hend⟩ := run_end (hchain (s :: g) (by simp)) hzg
  simp only [Piece.continues, decide_eq_true_eq, hfile, hend]

theorem coalesce_concat_of_continues {l R : List (Piece φ)} {y x : Piece φ} (h : coalesce l = R ++ [y])
    (hyx : y.continues x) : coalesce (l ++ [x]) = R ++ [{ y with len := y.len + x.len }] := by
  obtain ⟨rs, s, g, hsplit, rfl, hy⟩ := last_run h
  obtain ⟨z, hz⟩ : ∃ z, z ∈ (s :: g).getLast? := ⟨_, List.getLast?_eq_some_getLast (by simp)⟩
  have hzl : z ∈ l.getLast? := by
    rw [(List.splitBy_eq_iff.1 hsplit).1]
    simpa using hz
  unfold coalesce
  rw [splitBy_concat_of_rel hsplit hz ((continues_last_iff h hzl x).1 hyx), List.filterMap_append, List.cons_append,
    filterMap_joined_cons, List.filterMap_nil, hy]
  simp [Nat.add_assoc]

theorem coalesce_concat_of_not {l : List (Piece φ)} {x : Piece φ} (h : ∀ z ∈ l.getLast?, ¬z.continues x) :
    coalesce (l ++ [x]) = coalesce l ++ [x] := by
  unfold coalesce
  rw [List.splitBy_append_cons [] (fun z hz => by simpa using h z hz), List.filterMap_append]
  rfl

/-- The last piece continues the one before it. -/
def lastContinues (l : List (Piece φ)) : Bool :=
  l.dropLast.getLast?.any fun x => l.getLast?.any fun y => x.continues y

@[simp] theorem lastContinues_nil : lastContinues ([] : List (Piece φ)) = false := rfl

@[simp] theorem lastContinues_concat (l : List (Piece φ)) (x : Piece φ) :
    lastContinues (l ++ [x]) = l.getLast?.any fun z => z.continues x := by
  simp [lastContinues]

theorem total_coalesce (l : List (Piece φ)) : total (coalesce l) = total l := by
  have hjoin : ∀ rs : List (List (Piece φ)), total (rs.filterMap joined) = total rs.flatten := by
    intro rs
    induction rs with
    | nil => rfl
    | cons g rs ih =>
      cases g with
      | nil => simpa [List.filterMap_cons, joined] using ih
      | cons s g => rw [filterMap_joined_cons, total_cons, ih, List.flatten_cons, total_append]
  unfold coalesce
  rw [hjoin, List.flatten_splitBy]

end

end Lib

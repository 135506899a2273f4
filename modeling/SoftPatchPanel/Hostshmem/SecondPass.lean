import SoftPatchPanel.Hostshmem.BuildConfig
import SoftPatchPanel.Lib.StableSort
import Mathlib.Data.List.Induction

/-!
# The second pass is a stable selection sort

Round `i` of the second pass looks for the first of the biggest pages from place `i` on, moves the pages before it
one place to the right and puts it at place `i`.  On an array of pages followed by unused elements this is one
step of `SelectionSorted` (`moveBiggest_eq`), so the whole pass sorts the pages stably by descending length and
leaves the unused elements where they are (`secondPass_eq`).  Pages of length zero are never the biggest, so among
pages with an address they end up last and in reverse (`secondPass_regroups`).
-/

namespace SoftPatchPanel.Hostshmem

open Lib

/-- The key of the sort. -/
def Memseg.size (p : Memseg) : Nat := p.len.toNat

/-- Pages as the first pass fills them in: with an address and a length. -/
def Used (P : List Memseg) : Prop := ∀ p ∈ P, p.addr64 ≠ 0 ∧ 0 < p.size

/-- Elements of `pages` that the pass takes for unused. -/
def Unused (R : List Memseg) : Prop := ∀ r ∈ R, r.addr64 = 0

private theorem unused_freePages (m : Nat) : Unused (freePages m) := by
  intro r hr
  rw [List.eq_of_mem_replicate hr]

private theorem findBiggest_unused {R : List Memseg} (hR : Unused R) (j : Nat) (len : UInt64) (idx : Option Nat) :
    findBiggest R j len idx = idx := by
  cases R with
  | nil => rfl
  | cons r R => simp [findBiggest, hR r (by simp)]

/-- `b` is what the inner loop has chosen of `pre ++ b :: post`: the first of the biggest pages, or the last page when
all of them are empty, since a `biggest_len` of 0 counts as "none found yet". -/
structure Chosen (pre : List Memseg) (b : Memseg) (post : List Memseg) : Prop where
  before : ∀ a ∈ pre, a.size ≤ b.size
  before_lt : 0 < b.size → ∀ a ∈ pre, a.size < b.size
  after : ∀ a ∈ post, a.size ≤ b.size
  last : b.size = 0 → post = []

private theorem Chosen.all_le {pre post : List Memseg} {b a : Memseg} (h : Chosen pre b post)
    (ha : a ∈ pre ++ b :: post) : a.size ≤ b.size := by
  simp only [List.mem_append, List.mem_cons] at ha
  rcases ha with ha | rfl | ha
  · exact h.before a ha
  · exact Nat.le_refl _
  · exact h.after a ha

private theorem size_eq_zero (p : Memseg) : p.size = 0 ↔ p.len = 0 := by
  rw [← UInt64.toNat_inj]; rfl

/-- The scan goes on from pages `pre ++ b :: post` it has seen, of which it has chosen `b`. -/
private theorem findBiggest_from (i : Nat) {R : List Memseg} (hR : Unused R) {P : List Memseg}
    (hP : ∀ p ∈ P, p.addr64 ≠ 0) :
    ∀ (pre : List Memseg) (b : Memseg) (post : List Memseg), Chosen pre b post →
      ∃ pre' b' post', pre ++ b :: post ++ P = pre' ++ b' :: post' ∧ Chosen pre' b' post' ∧
        findBiggest (P ++ R) (i + (pre ++ b :: post).length) b.len (some (i + pre.length)) =
          some (i + pre'.length) := by
  induction P with
  | nil =>
    intro pre b post h
    exact ⟨pre, b, post, by simp, h, by simp [findBiggest_unused hR]⟩
  | cons p P ih =>
    intro pre b post h
    have hpa := hP p (by simp)
    have hP' : ∀ q ∈ P, q.addr64 ≠ 0 := fun q hq => hP q (by simp [hq])
    by_cases hlt : b.len = 0 ∨ b.len < p.len
    · -- `p` is bigger than everything before it, or everything before it is empty
      have hp : Chosen (pre ++ b :: post) p [] := by
        have hle : b.size ≤ p.size ∧ (0 < p.size → b.size < p.size) := by
          rcases hlt with h0 | hlt
          · have := (size_eq_zero b).2 h0
            omega
          · have : b.size < p.size := UInt64.lt_iff_toNat_lt.1 hlt
            omega
        refine ⟨?_, ?_, by simp, fun _ => rfl⟩
        · intro a ha
          exact (h.all_le ha).trans hle.1
        · intro hpos a ha
          exact Nat.lt_of_le_of_lt (h.all_le ha) (hle.2 hpos)
      obtain ⟨pre', b', post', h1, h2, h3⟩ := ih hP' (pre ++ b :: post) p [] hp
      refine ⟨pre', b', post', by simpa using h1, h2, ?_⟩
      simp only [List.cons_append, findBiggest, hpa, ↓reduceIte, hlt]
      simpa [Nat.add_assoc] using h3
    · have hb : Chosen pre b (post ++ [p]) := by
        rw [not_or] at hlt
        have hpos : b.size ≠ 0 := fun h0 => hlt.1 ((size_eq_zero b).1 h0)
        have hle : p.size ≤ b.size := Nat.not_lt.1 (fun h => hlt.2 (UInt64.lt_iff_toNat_lt.2 h))
        refine ⟨h.before, h.before_lt, ?_, fun h0 => absurd h0 hpos⟩
        intro a ha
        simp only [List.mem_append, List.mem_singleton] at ha
        rcases ha with ha | rfl
        · exact h.after a ha
        · exact hle
      obtain ⟨pre', b', post', h1, h2, h3⟩ := ih hP' pre b (post ++ [p]) hb
      refine ⟨pre', b', post', by simpa using h1, h2, ?_⟩
      simp only [List.cons_append, findBiggest, hpa, ↓reduceIte, hlt]
      simpa [Nat.add_assoc] using h3

/-- The inner loop chooses a page. -/
private theorem findBiggest_eq (i : Nat) {R : List Memseg} (hR : Unused R) {P : List Memseg}
    (hP : ∀ p ∈ P, p.addr64 ≠ 0) (hne : P ≠ []) :
    ∃ pre b post, P = pre ++ b :: post ∧ Chosen pre b post ∧
      findBiggest (P ++ R) i 0 none = some (i + pre.length) := by
  obtain ⟨p, P, rfl⟩ := List.exists_cons_of_ne_nil hne
  have hpa := hP p (by simp)
  have hP' : ∀ q ∈ P, q.addr64 ≠ 0 := fun q hq => hP q (by simp [hq])
  obtain ⟨pre, b, post, h1, h2, h3⟩ := findBiggest_from i hR hP' [] p [] ⟨by simp, by simp, by simp, fun _ => rfl⟩
  refine ⟨pre, b, post, by simpa using h1, h2, ?_⟩
  simp only [List.cons_append, findBiggest, hpa, ↓reduceIte, true_or]
  simpa using h3

/-! ### Moving pages to the right -/

private theorem shift_one (A B : List Memseg) (x y : Memseg) :
    ((A ++ y :: x :: B).set (A.length + 1) ((A ++ y :: x :: B).getD A.length {})).set A.length {} =
      A ++ {} :: y :: B := by
  simp [List.getD_eq_getElem?_getD]

/-- The loop that moves `S` one place to the right, over `x`. -/
private theorem shiftRight_eq (pre : List Memseg) (S : List Memseg) (hS : S ≠ []) :
    ∀ (x : Memseg) (post : List Memseg),
      shiftRight pre.length (pre.length + S.length - 1) (pre ++ S ++ x :: post) = pre ++ {} :: S ++ post := by
  induction S using List.reverseRecOn with
  | nil => exact absurd rfl hS
  | append_singleton S y ih =>
    intro x post
    have hlen : pre.length + (S ++ [y]).length - 1 = (pre ++ S).length := by simp
    have hpages : pre ++ (S ++ [y]) ++ x :: post = (pre ++ S) ++ y :: x :: post := by simp
    rw [hlen, hpages]
    -- one round: `y` moves, and the rest of `S` follows
    have hround : ∀ j pages, pre.length ≤ j → shiftRight pre.length j pages =
        if j = 0 then (pages.set 1 (pages.getD 0 {})).set 0 {}
        else shiftRight pre.length (j - 1) ((pages.set (j + 1) (pages.getD j {})).set j {}) := by
      intro j pages hj
      cases j with
      | zero => simp [shiftRight, Nat.le_zero.1 hj]
      | succ j => simp [shiftRight, hj]
    rw [hround _ _ (by simp)]
    by_cases hnil : S = []
    · subst hnil
      cases hpre : pre.length with
      | zero =>
        have : pre = [] := List.length_eq_zero_iff.1 hpre
        subst this
        simp
      | succ k =>
        rw [ite_cond_eq_false _ _ (by simp [hpre]), ← hpre]
        have hstop : ∀ pages, shiftRight pre.length ((pre ++ []).length - 1) pages = pages := by
          intro pages
          rw [List.append_nil, hpre, Nat.add_sub_cancel]
          cases k <;> simp [shiftRight]
        rw [hstop, shift_one]
        simp
    · have hpos : 0 < S.length := List.length_pos_iff.2 hnil
      rw [ite_cond_eq_false _ _ (by simp; intro _; exact hnil), shift_one]
      have := ih hnil {} (y :: post)
      rw [List.length_append, this]
      simp

theorem moveBiggest_eq (pre : List Memseg) {P : List Memseg} (hP : ∀ p ∈ P, p.addr64 ≠ 0) (hne : P ≠ [])
    {R : List Memseg} (hR : Unused R) :
    ∃ S b post, P = S ++ b :: post ∧ Chosen S b post ∧
      moveBiggest pre.length (pre ++ P ++ R) = .ok (pre ++ [b] ++ (S ++ post) ++ R) := by
  obtain ⟨S, b, post, h1, h2, h3⟩ := findBiggest_eq pre.length hR hP hne
  refine ⟨S, b, post, h1, h2, ?_⟩
  have hdrop : (pre ++ P ++ R).drop pre.length = P ++ R := by simp
  unfold moveBiggest
  rw [hdrop, h3]
  by_cases hS : S = []
  · subst hS
    subst h1
    simp
  · have hget : (pre ++ P ++ R).getD (pre.length + S.length) {} = b := by
      subst h1
      have : pre ++ (S ++ b :: post) ++ R = (pre ++ S) ++ b :: (post ++ R) := by simp
      rw [this, ← List.length_append, List.getD_eq_getElem?_getD]
      simp
    have hpages : pre ++ P ++ R = pre ++ S ++ b :: (post ++ R) := by
      subst h1; simp
    simp only
    rw [ite_cond_eq_false _ _ (by simp; exact hS), hget, hpages, shiftRight_eq pre S hS]
    congr 1
    simp

/-! ### The whole pass -/

/-- `P'` is `P` regrouped by length: in descending order, with the pages of each positive length in the order of
`P` and the empty ones the other way round. -/
structure Regrouped (P P' : List Memseg) : Prop where
  perm : P'.Perm P
  desc : P'.Pairwise (fun p q => q.size ≤ p.size)
  stable : ∀ k, 0 < k → P'.filter (fun p => decide (p.size = k)) = P.filter (fun p => decide (p.size = k))
  empty : P'.filter (fun p => decide (p.size = 0)) = (P.filter (fun p => decide (p.size = 0))).reverse

private theorem Regrouped.nil : Regrouped [] [] := ⟨List.Perm.refl _, List.Pairwise.nil, fun _ _ => rfl, rfl⟩

private theorem Regrouped.select {S post P' : List Memseg} {b : Memseg} (hb : Chosen S b post)
    (h : Regrouped (S ++ post) P') : Regrouped (S ++ b :: post) (b :: P') := by
  refine ⟨(h.perm.cons b).trans List.perm_middle.symm, ?_, ?_, ?_⟩
  · refine List.pairwise_cons.2 ⟨?_, h.desc⟩
    intro q hq
    rcases List.mem_append.1 (h.perm.mem_iff.1 hq) with hq | hq
    · exact hb.before q hq
    · exact hb.after q hq
  · intro k hk
    refine filter_cons_select ?_ (h.stable k hk)
    intro a ha hbk
    have := hb.before_lt (by omega) a ha
    omega
  · by_cases h0 : b.size = 0
    · -- the chosen page is the last one
      have hlast := hb.last h0
      subst hlast
      have := h.empty
      rw [List.append_nil] at this
      simp [h0, this]
    · have := h.empty
      rw [List.filter_append] at this
      simp [List.filter_append, h0, this]

/-- The second pass from place `i` on. -/
private theorem secondPassFrom_eq {R : List Memseg} (hR : Unused R) :
    ∀ (n : Nat) (pre P : List Memseg), (∀ p ∈ P, p.addr64 ≠ 0) → P.length ≤ n →
      ∃ P', Regrouped P P' ∧ (Used P → SelectionSorted Memseg.size P P') ∧
        secondPassFrom n pre.length (pre ++ P ++ R) = .ok (pre ++ P' ++ R) := by
  intro n
  induction n with
  | zero =>
    intro pre P _ hlen
    obtain rfl : P = [] := List.length_eq_zero_iff.1 (by omega)
    exact ⟨[], Regrouped.nil, fun _ => SelectionSorted.nil, rfl⟩
  | succ n ih =>
    intro pre P hP hlen
    by_cases hne : P = []
    · subst hne
      refine ⟨[], Regrouped.nil, fun _ => SelectionSorted.nil, ?_⟩
      have : ((pre ++ [] ++ R).getD pre.length {}).addr64 = 0 := by
        rw [List.append_nil, List.getD_eq_getElem?_getD, List.getElem?_append_right (Nat.le_refl _)]
        cases R with
        | nil => simp
        | cons r R => simpa using hR r (by simp)
      simp only [secondPassFrom, this, ↓reduceIte]
    · obtain ⟨S, b, post, h1, h2, h3⟩ := moveBiggest_eq pre hP hne hR
      have hhead : ((pre ++ P ++ R).getD pre.length {}).addr64 ≠ 0 := by
        obtain ⟨p, Q, rfl⟩ := List.exists_cons_of_ne_nil hne
        rw [List.getD_eq_getElem?_getD, List.append_assoc, List.getElem?_append_right (Nat.le_refl _)]
        simpa using hP p (by simp)
      have hsub : ∀ q ∈ S ++ post, q ∈ P := by
        intro q hq
        rw [h1]
        simp only [List.mem_append, List.mem_cons] at hq ⊢
        tauto
      obtain ⟨P', hr, hs, hrun⟩ := ih (pre ++ [b]) (S ++ post) (fun q hq => hP q (hsub q hq))
        (by rw [h1] at hlen; simp at hlen ⊢; omega)
      refine ⟨b :: P', ?_, ?_, ?_⟩
      · rw [h1]; exact hr.select h2
      · intro hused
        have hpos : 0 < b.size := (hused b (by rw [h1]; simp)).2
        rw [h1]
        exact SelectionSorted.select S b post P' (h2.before_lt hpos) h2.after
          (hs (fun q hq => hused q (hsub q hq)))
      · simp only [secondPassFrom, hhead, ↓reduceIte, h3]
        simpa using hrun

theorem secondPass_eq {P : List Memseg} (hP : Used P) (m : Nat) :
    ∃ P', SelectionSorted Memseg.size P P' ∧ secondPass (P ++ freePages m) = .ok (P' ++ freePages m) := by
  obtain ⟨P', -, h1, h2⟩ := secondPassFrom_eq (unused_freePages m) (P ++ freePages m).length [] P
    (fun p hp => (hP p hp).1) (by simp)
  exact ⟨P', h1 hP, by simpa [secondPass] using h2⟩

/-- The second pass on any array of pages followed by unused elements: it ends with the pages regrouped by length and
the same unused elements behind them.  When no page is empty, that is a stable sort. -/
theorem secondPass_regroups {P R : List Memseg} (hP : ∀ p ∈ P, p.addr64 ≠ 0) (hR : ∀ r ∈ R, r.addr64 = 0) :
    ∃ P', secondPass (P ++ R) = .ok (P' ++ R) ∧ Regrouped P P' ∧
      ((∀ p ∈ P, 0 < p.size) → StableDesc Memseg.size P P') := by
  obtain ⟨P', hr, hs, hrun⟩ := secondPassFrom_eq hR (P ++ R).length [] P hP (by simp)
  refine ⟨P', by simpa [secondPass] using hrun, hr, ?_⟩
  intro hpos
  exact (hs (fun p hp => ⟨hP p hp, hpos p hp⟩)).stable

/-- Two 2 MB pages around a 1 GB page, with a stale length in the unused element. -/
theorem secondPass_regroups_three :
    ∃ P', secondPass ([{ addr64 := 0x200000, physAddr := 0x200000, len := 0x200000 },
          { addr64 := 0x40000000, physAddr := 0x40000000, len := 0x40000000 },
          { addr64 := 0x400000, physAddr := 0x600000, len := 0x200000 }] ++ [{ len := 7 }]) =
        .ok (P' ++ [{ len := 7 }]) ∧
      Regrouped [{ addr64 := 0x200000, physAddr := 0x200000, len := 0x200000 },
          { addr64 := 0x40000000, physAddr := 0x40000000, len := 0x40000000 },
          { addr64 := 0x400000, physAddr := 0x600000, len := 0x200000 }] P' :=
  have ⟨P', h1, h2, _⟩ := secondPass_regroups
    (P := [{ addr64 := 0x200000, physAddr := 0x200000, len := 0x200000 },
      { addr64 := 0x40000000, physAddr := 0x40000000, len := 0x40000000 },
      { addr64 := 0x400000, physAddr := 0x600000, len := 0x200000 }]) (R := [{ len := 7 }])
    (by decide) (by decide)
  ⟨P', h1, h2⟩

end SoftPatchPanel.Hostshmem

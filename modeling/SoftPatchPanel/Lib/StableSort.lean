import Mathlib.Data.List.Perm.Basic
import Mathlib.Order.Lattice

/-!
# Stable selection sort by a key

`SelectionSorted key l l'` says that `l'` comes from `l` by taking out the first element of greatest key again and
again, without changing the order of the others.  Such an `l'` is a permutation of `l` in descending order of key in
which elements of equal key keep their order (`SelectionSorted.stable`, `StableDesc.pairwise`), so a block of
neighbours with one key is still a block of neighbours afterwards (`StableDesc.block`).
-/

namespace Lib

/-- `l'` is `l` in descending order of `key`, with the elements of each key in the order of `l`. -/
structure StableDesc {α κ : Type} [LinearOrder κ] (key : α → κ) (l l' : List α) : Prop where
  perm : l'.Perm l
  desc : l'.Pairwise (fun a b => key b ≤ key a)
  filter_eq : ∀ k, l'.filter (fun a => decide (key a = k)) = l.filter (fun a => decide (key a = k))

/-- Selection sort, always taking the first element of greatest key. -/
inductive SelectionSorted {α κ : Type} [LinearOrder κ] (key : α → κ) : List α → List α → Prop where
  | nil : SelectionSorted key [] []
  | select (pre : List α) (m : α) (post l' : List α) (hpre : ∀ a ∈ pre, key a < key m)
      (hpost : ∀ a ∈ post, key a ≤ key m) (rest : SelectionSorted key (pre ++ post) l') :
      SelectionSorted key (pre ++ m :: post) (m :: l')

/-- Taking `m` to the front keeps the order of the elements of key `k`, when none of them is passed by `m`. -/
theorem filter_cons_select {α κ : Type} [DecidableEq κ] {key : α → κ} {pre post l' : List α} {m : α} {k : κ}
    (hpre : ∀ a ∈ pre, key m = k → key a ≠ k)
    (h : l'.filter (fun a => decide (key a = k)) = (pre ++ post).filter (fun a => decide (key a = k))) :
    (m :: l').filter (fun a => decide (key a = k)) = (pre ++ m :: post).filter (fun a => decide (key a = k)) := by
  rw [List.filter_append] at h
  rw [List.filter_append, List.filter_cons, List.filter_cons, h]
  by_cases hm : key m = k
  · have hnil : pre.filter (fun a => decide (key a = k)) = [] := by
      rw [List.filter_eq_nil_iff]
      intro a ha
      simpa using hpre a ha hm
    simp [hm, hnil]
  · simp [hm]

theorem SelectionSorted.stable {α κ : Type} [LinearOrder κ] {key : α → κ} {l l' : List α}
    (h : SelectionSorted key l l') : StableDesc key l l' := by
  induction h with
  | nil => exact ⟨List.Perm.refl _, List.Pairwise.nil, fun _ => rfl⟩
  | select pre m post l' hpre hpost _ ih =>
    refine ⟨(ih.perm.cons m).trans List.perm_middle.symm, ?_, ?_⟩
    · refine List.pairwise_cons.2 ⟨?_, ih.desc⟩
      intro a ha
      rcases List.mem_append.1 (ih.perm.mem_iff.1 ha) with h | h
      · exact (hpre a h).le
      · exact hpost a h
    · intro k
      -- no element before the chosen one has its key
      refine filter_cons_select ?_ (ih.filter_eq k)
      intro a ha hm
      have := hpre a ha
      rw [hm] at this
      exact this.ne

/-- A list in descending order of key is its elements above `k`, then those at `k`, then those below. -/
private theorem split_at_key {α κ : Type} [LinearOrder κ] {key : α → κ} {l : List α}
    (h : l.Pairwise (fun a b => key b ≤ key a)) (k : κ) :
    l = l.filter (fun a => decide (k < key a)) ++ l.filter (fun a => decide (key a = k)) ++
      l.filter (fun a => decide (key a < k)) := by
  induction l with
  | nil => rfl
  | cons a l ih =>
    rw [List.pairwise_cons] at h
    have ih' := ih h.2
    rcases lt_trichotomy k (key a) with hk | hk | hk
    · simpa [List.filter_cons, hk, hk.ne', hk.not_gt] using ih'
    · -- everything after `a` is at most at `k`
      have hgt : l.filter (fun b => decide (k < key b)) = [] := by
        rw [List.filter_eq_nil_iff]
        intro b hb
        have := h.1 b hb
        simpa [hk] using this
      rw [hgt] at ih'
      simpa [List.filter_cons, hk.symm, ← hk, hgt] using ih'
    · have hall : ∀ b ∈ l, key b < k := fun b hb => lt_of_le_of_lt (h.1 b hb) hk
      have hgt : l.filter (fun b => decide (k < key b)) = [] := by
        rw [List.filter_eq_nil_iff]
        intro b hb
        simpa using (hall b hb).le
      have heq : l.filter (fun b => decide (key b = k)) = [] := by
        rw [List.filter_eq_nil_iff]
        intro b hb
        simpa using (hall b hb).ne
      rw [hgt, heq] at ih'
      simpa [List.filter_cons, hk, hk.ne, hk.not_gt, hgt, heq] using ih'

theorem StableDesc.pairwise {α κ : Type} [LinearOrder κ] {key : α → κ} {l l' : List α} (h : StableDesc key l l')
    {R : α → α → Prop} (hl : l.Pairwise R) : l'.Pairwise (fun a b => key b < key a ∨ (key b = key a ∧ R a b)) := by
  rw [List.pairwise_iff_forall_sublist]
  intro a b hab
  rcases (List.pairwise_iff_forall_sublist.1 h.desc hab).lt_or_eq with hlt | heq
  · exact Or.inl hlt
  · refine Or.inr ⟨heq, List.pairwise_iff_forall_sublist.1 hl ?_⟩
    have hsub := hab.filter (fun x => decide (key x = key a))
    rw [h.filter_eq] at hsub
    simp only [List.filter_cons, heq, decide_true, ↓reduceIte, List.filter_nil] at hsub
    exact hsub.trans List.filter_sublist

/-- A block of neighbours that share a key is still a block afterwards. -/
theorem StableDesc.block {α κ : Type} [LinearOrder κ] {key : α → κ} {A C B l' : List α}
    (h : StableDesc key (A ++ C ++ B) l') {k : κ} (hC : ∀ c ∈ C, key c = k) :
    ∃ A' B', l' = A' ++ C ++ B' := by
  have hsplit := split_at_key h.desc k
  have hfilter := h.filter_eq k
  have hself : C.filter (fun a => decide (key a = k)) = C := by
    rw [List.filter_eq_self]
    intro c hc
    simpa using hC c hc
  rw [List.filter_append, List.filter_append, hself] at hfilter
  rw [hfilter] at hsplit
  refine ⟨l'.filter (fun a => decide (k < key a)) ++ A.filter (fun a => decide (key a = k)),
    B.filter (fun a => decide (key a = k)) ++ l'.filter (fun a => decide (key a < k)), ?_⟩
  conv => lhs; rw [hsplit]
  simp only [List.append_assoc]

end Lib

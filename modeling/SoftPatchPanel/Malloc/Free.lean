import SoftPatchPanel.Malloc.Alloc

/-!
# Freeing

`malloc_elem_free` joins the element with the free elements on both sides of it and gives the result to the free lists.
The invariant holds again, so no two free elements lie side by side, and the other busy elements are kept (`Inv.free`).
-/

namespace SoftPatchPanel.Malloc

open Lib

section

variable {c c' : MemConfig} {chunks : Nat × Memseg → List UInt64} {out out' : List UInt64} {p : Nat × Memseg}
  {l r : List UInt64} {x y z : UInt64}

private theorem Inv.reorder (h : Inv c chunks out) (hout : ∀ z, z ∈ out' ↔ z ∈ out) : Inv c chunks out' := by
  have hidle : Idle c out' = Idle c out := by
    funext z
    rw [Idle, Idle, hout]
  refine ⟨h.toShape, ?_, h.nodup, ?_⟩
  · rw [hidle]
    exact h.listed
  · rw [hidle]
    exact h.apart

/-- A change of the counters of a heap. -/
theorem freeHead_modifyHeap {f : MallocHeap → MallocHeap} (hf : ∀ heap, (f heap).freeHead = heap.freeHead)
    (c : MemConfig) (k i : Nat) : ((c.modifyHeap k f).mallocHeaps i).freeHead = (c.mallocHeaps i).freeHead := by
  simp only [MemConfig.modifyHeap]
  by_cases hi : i = k
  · subst hi
    rw [Function.update_self, hf]
  · rw [Function.update_of_ne hi]

theorem Inv.modifyHeap {f : MallocHeap → MallocHeap} (h : Inv c chunks out) (k : Nat)
    (hf : ∀ heap, (f heap).freeHead = heap.freeHead) : Inv (c.modifyHeap k f) chunks out := by
  refine ⟨⟨h.segs, h.chunked⟩, fun i j z => ?_, fun i j => ?_, h.apart⟩
  · rw [freeHead_modifyHeap hf]
    exact h.listed i j z
  · rw [freeHead_modifyHeap hf]
    exact h.nodup i j

/-- The element before `x`, or 0. -/
private theorem Shape.prev_eq (h : Shape c chunks) (hp : p ∈ c.segs) (hchunks : chunks p = l ++ x :: r) :
    (c.mem x).prev = l.getLastD 0 := by
  have hlinked := (h.chunked p hp).linked
  rw [hchunks, List.append_assoc, linked_append] at hlinked
  exact hlinked.2.1

/-- Joined elements: the second one is gone. -/
private theorem not_isElem_join (h : Shape c chunks) (hp : p ∈ c.segs) (hchunks : chunks p = l ++ x :: y :: r)
    (hsegs : c'.segs = c.segs) : ¬IsElem c' (Function.update chunks p (l ++ x :: r)) y := by
  have hchunks' : chunks p = l ++ [x, y] ++ r := by simpa using hchunks
  have hnodup := (h.chunked p hp).nodup
  rw [hchunks, List.nodup_append, List.nodup_cons] at hnodup
  intro hy
  have hy' : IsElem c' (Function.update chunks p (l ++ [x] ++ r)) y := by simpa using hy
  rw [isElem_replace h hp hchunks' hsegs] at hy'
  rcases hy' with hy' | ⟨-, hy'⟩
  · rw [List.mem_singleton] at hy'
    exact hnodup.2.1.1 (by simp [hy'])
  · exact hy' (by simp)

@[simp] theorem state_joinElem (c : MemConfig) (x y z : UInt64) :
    ((joinElem c x y).mem z).state = (c.mem z).state := by
  have hmod : ∀ (c : MemConfig) (a : UInt64) (f : MallocElem → MallocElem), (∀ e, (f e).state = e.state) →
      ((c.modify a f).mem z).state = (c.mem z).state := by
    intro c a f hf
    by_cases hz : z = a
    · subst hz
      rw [MemConfig.mem_modify_self, hf]
    · rw [MemConfig.mem_modify_of_ne _ _ hz]
  simp only [joinElem]
  exact (hmod _ _ (fun e => { e with prev := x }) fun _ => rfl).trans
    (hmod c x (fun e => { e with size := e.size + (c.mem y).size }) fun _ => rfl)

/-- The element is joined with a free one behind it. -/
private theorem Inv.joinNext (h : Inv c chunks []) (hp : p ∈ c.segs) (hchunks : chunks p = l ++ x :: r)
    (hbusy : (c.mem x).state = .elemBusy)
    (hc' : c' = if (c.mem (x + (c.mem x).size)).state = .elemFree then
        joinElem (elemFreeListRemove c (x + (c.mem x).size)) x (x + (c.mem x).size)
      else c) :
    ∃ chunks' r', Inv c' chunks' [x] ∧ Frame c chunks c' chunks' [x] ∧ chunks' p = l ++ x :: r' ∧
      (∀ z ∈ r'.head?, ¬Idle c' [x] z) ∧ c'.segs = c.segs := by
  have h0 : Inv c chunks [x] := h.addOut (by rw [hbusy]; simp)
  obtain ⟨⟨rest, hrest⟩, hnext, -⟩ := h.toShape.next hp hchunks
  by_cases hfree : (c.mem (x + (c.mem x).size)).state = .elemFree
  · rw [ite_cond_eq_true _ _ (eq_true hfree)] at hc'
    -- the end of the memseg is not free, so there is an element
    obtain ⟨r', rfl⟩ : ∃ r', r = (x + (c.mem x).size) :: r' := by
      cases r with
      | nil =>
        have hmarker := (h.chunked p hp).marker
        rw [List.nil_append] at hrest
        rw [← (List.cons.inj hrest).1, hmarker] at hfree
        cases hfree
      | cons y r' => exact ⟨r', by rw [(List.cons.inj hrest).1]⟩
    generalize x + (c.mem x).size = y at *
    have hchunks' : chunks p = (l ++ [x]) ++ y :: r' := by simpa using hchunks
    have hy : IsElem c chunks y := ⟨p, hp, by simp [hchunks]⟩
    obtain ⟨h2, f2⟩ := (h0.remove y).join hp hchunks (by simp) (by simp)
    rw [← hc'] at h2 f2
    have hsegs : c'.segs = c.segs := by
      rw [hc']
      rfl
    have hynot : ¬IsElem c' _ y := not_isElem_join h.toShape hp hchunks hsegs
    have hframe : Frame c chunks c' _ [y, x] := (frame_remove c chunks y [y, x]).trans f2
    have hapart := h.apart p hp
    have hnodup := (h.chunked p hp).nodup
    rw [hchunks'] at hapart hnodup
    rw [List.nodup_append, List.nodup_cons] at hnodup
    refine ⟨_, r', h2.dropOut fun hb => hynot hb.1, hframe.shrink (not_busy_of_free hfree) fun hb => hynot hb.1,
      Function.update_self .., fun z hz => ?_, hsegs⟩
    have hzr := List.mem_of_mem_head? hz
    refine hframe.not_idle h.toShape ⟨p, hp, by simp [hchunks, hzr]⟩ ?_ ((hapart.neighbours ⟨hfree, by simp⟩).2 z hz)
    simp only [List.mem_cons, List.not_mem_nil, or_false, not_or]
    constructor
    · rintro rfl
      exact hnodup.2.1.1 hzr
    · rintro rfl
      exact hnodup.2.2 z (by simp) z (by simp [hzr]) rfl
  · rw [ite_cond_eq_false _ _ (eq_false hfree)] at hc'
    subst hc'
    refine ⟨chunks, r, h0, ⟨fun _ _ => Iff.rfl, fun z _ _ => .of_mem rfl z⟩, hchunks, fun z hz hi => ?_, rfl⟩
    cases r with
    | nil => cases hz
    | cons y r' =>
      obtain rfl : y = z := by simpa using hz
      rw [← (List.cons.inj hrest).1] at hfree
      exact hfree hi.1

/-- The element is joined with a free one before it, and the result goes to the free lists. -/
private theorem Inv.joinPrev (h : Inv c chunks [x]) (hp : p ∈ c.segs) (hchunks : chunks p = l ++ x :: r)
    (hhead : ∀ z ∈ r.head?, ¬Idle c [x] z)
    (hc' : c' = if (c.mem x).prev ≠ 0 ∧ (c.mem (c.mem x).prev).state = .elemFree then
        mallocElemFreeListInsert (joinElem (elemFreeListRemove c (c.mem x).prev) (c.mem x).prev x) (c.mem x).prev
      else (mallocElemFreeListInsert c x).modify x fun e => { e with pad := 0 }) :
    ∃ chunks', Inv c' chunks' [] ∧ Frame c chunks c' chunks' [x] ∧ ¬Busy c' chunks' x := by
  have hprev := h.toShape.prev_eq hp hchunks
  by_cases hfree : (c.mem x).prev ≠ 0 ∧ (c.mem (c.mem x).prev).state = .elemFree
  · rw [ite_cond_eq_true _ _ (eq_true hfree)] at hc'
    obtain ⟨hne, hfree⟩ := hfree
    obtain ⟨l', q, rfl⟩ : ∃ l' q, l = l' ++ [q] := by
      rcases List.eq_nil_or_concat l with rfl | ⟨l', q, rfl⟩
      · exact absurd hprev hne
      · exact ⟨l', q, by simp⟩
    obtain rfl : (c.mem x).prev = q := by simpa using hprev
    generalize (c.mem x).prev = q at *
    have hchunks' : chunks p = l' ++ q :: x :: r := by simpa using hchunks
    have hnodup := (h.chunked p hp).nodup
    rw [hchunks', List.nodup_append, List.nodup_cons, List.nodup_cons] at hnodup
    have hqx : q ≠ x := by
      rintro rfl
      exact hnodup.2.1.1 (by simp)
    have hapart := h.apart p hp
    rw [hchunks'] at hapart
    obtain ⟨h2, f2⟩ := (h.remove q).join hp hchunks' (by simp) (by simp)
    have hxnot : ¬IsElem (joinElem (elemFreeListRemove c q) q x) _ x :=
      not_isElem_join h.toShape hp hchunks' rfl
    have f2' := (frame_remove c chunks q [q, x]).trans f2
    have h2' : Inv (joinElem (elemFreeListRemove c q) q x) _ [x, q] := h2.reorder (by simp [or_comm])
    have h3 := h2'.dropOut fun hb => hxnot hb.1
    -- the elements around the joined one are the old ones, and none of them is free
    have hother : ∀ z, z ∈ l' ∨ z ∈ r → ¬Idle c [x] z → ¬Idle (joinElem (elemFreeListRemove c q) q x) [] z := by
      intro z hz hidle hi
      rw [Idle, state_joinElem] at hi
      refine hidle ⟨hi.1, ?_⟩
      rintro hzx
      rw [List.mem_singleton] at hzx
      subst hzx
      rcases hz with hz | hz
      · exact hnodup.2.2 z hz z (by simp) rfl
      · exact hnodup.2.1.2.1 hz
    obtain ⟨h4, f4⟩ := h3.insert (by simp) hp (Function.update_self ..)
      (fun z hz => hother z (Or.inl (List.mem_of_mem_getLast? hz))
        ((hapart.neighbours ⟨hfree, by simpa using hqx⟩).1 z hz))
      fun z hz => hother z (Or.inr (List.mem_of_mem_head? hz)) (hhead z hz)
    rw [← hc'] at h4 f4
    have hxnot' : ¬IsElem c' (Function.update chunks p (l' ++ q :: r)) x := by
      intro hx
      refine hxnot ?_
      rw [hc'] at hx
      exact hx
    have hframe : Frame c chunks c' (Function.update chunks p (l' ++ q :: r)) [q, x] :=
      f2'.trans (f4.mono (by simp))
    refine ⟨_, h4, hframe.shrink (not_busy_of_free hfree) ?_, fun hb => hxnot' hb.1⟩
    rw [hc']
    exact not_busy_insert _ _ _
  · rw [ite_cond_eq_false _ _ (eq_false hfree)] at hc'
    have hnodup := (h.chunked p hp).nodup
    rw [hchunks, List.nodup_append, List.nodup_cons] at hnodup
    have hlast : ∀ z ∈ l.getLast?, ¬Idle c [] z := by
      intro z hz hi
      have hz' : l.getLastD 0 = z := by rw [List.getLastD_eq_getLast?, Option.mem_def.1 hz, Option.getD_some]
      rw [hprev, hz'] at hfree
      have hzmem : z ∈ chunks p := by simp [hchunks, List.mem_of_mem_getLast? hz]
      exact hfree ⟨h.toShape.ne_zero ⟨p, hp, hzmem⟩, hi.1⟩
    have hhead' : ∀ z ∈ r.head?, ¬Idle c [] z := by
      intro z hz hi
      refine hhead z hz ⟨hi.1, ?_⟩
      rw [List.mem_singleton]
      rintro rfl
      exact hnodup.2.1.1 (List.mem_of_mem_head? hz)
    obtain ⟨h1, f1⟩ := h.insert (by simp) hp hchunks hlast hhead'
    have hmemx : (mallocElemFreeListInsert c x).mem x = { c.mem x with state := .elemFree } := by
      rw [mem_mallocElemFreeListInsert, MemConfig.mem_modify_self]
    have hpos := (h1.toShape.bounds (x := x) hp (by simp [hchunks])).2.2
    obtain ⟨h2, f2⟩ := h1.touch (y := x) (f := fun e => { e with pad := 0 }) hp hchunks (le_refl _)
      (by omega) (by rw [MemConfig.mem_modify_self]; exact ⟨rfl, rfl, rfl, rfl⟩)
      (by rw [MemConfig.mem_modify_self]; exact Or.inl rfl)
    rw [← hc'] at h2 f2
    refine ⟨chunks, h2, f1.trans f2, not_busy_of_free ?_⟩
    rw [hc', MemConfig.mem_modify_self, hmemx]

/-- A busy element can be freed; every other busy element stays as it is. -/
theorem Inv.free (h : Inv c chunks []) (hx : Busy c chunks x) :
    ∃ c' chunks', mallocElemFree c x = some c' ∧ Inv c' chunks' [] ∧
      (∀ z, Busy c' chunks' z ↔ z ≠ x ∧ Busy c chunks z) ∧ ∀ z, z ≠ x → Busy c chunks z → Kept c c' z := by
  obtain ⟨⟨p, hp, hmem⟩, hbusy⟩ := hx
  obtain ⟨l, r, hchunks⟩ := List.append_of_mem hmem
  have hne := h.toShape.ne_zero ⟨p, hp, hmem⟩
  obtain ⟨c1, hc1⟩ : ∃ c1, c1 = if (c.mem (x + (c.mem x).size)).state = .elemFree then
      joinElem (elemFreeListRemove c (x + (c.mem x).size)) x (x + (c.mem x).size) else c := ⟨_, rfl⟩
  obtain ⟨chunks1, r', h1, f1, hchunks1, hhead, hsegs⟩ := h.joinNext hp hchunks hbusy hc1
  rw [← hsegs] at hp
  obtain ⟨c2, hc2⟩ : ∃ c2, c2 = if (c1.mem x).prev ≠ 0 ∧ (c1.mem (c1.mem x).prev).state = .elemFree then
      mallocElemFreeListInsert (joinElem (elemFreeListRemove c1 (c1.mem x).prev) (c1.mem x).prev x) (c1.mem x).prev
    else (mallocElemFreeListInsert c1 x).modify x fun e => { e with pad := 0 } := ⟨_, rfl⟩
  obtain ⟨chunks2, h2, f2, hnot⟩ := h1.joinPrev hp hchunks1 hhead hc2
  have hframe := f1.trans f2
  have hfree : mallocElemFree c x =
      some (c2.modifyHeap (c2.mem x).heap fun h => { h with allocCount := h.allocCount - 1 }) := by
    rw [hc2, hc1]
    exact ite_cond_eq_false _ _ (eq_false (by simp [hne, hbusy]))
  refine ⟨_, chunks2, hfree, h2.modifyHeap _ fun _ => rfl, fun z => ?_, fun z hz hb => ?_⟩
  · have hkeep : Busy (c2.modifyHeap (c2.mem x).heap fun h => { h with allocCount := h.allocCount - 1 }) chunks2 z ↔
        Busy c2 chunks2 z := Iff.rfl
    rw [hkeep]
    by_cases hz : z = x
    · subst hz
      exact ⟨fun hb => absurd hb hnot, fun hb => absurd rfl hb.1⟩
    · rw [hframe.busy z (by simpa using hz)]
      exact ⟨fun hb => ⟨hz, hb⟩, fun hb => hb.2⟩
  · exact (hframe.kept z (by simpa using hz) hb).trans (.of_mem (MemConfig.mem_modifyHeap ..) z)

end

end SoftPatchPanel.Malloc

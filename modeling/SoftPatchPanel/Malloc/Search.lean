import SoftPatchPanel.Malloc.Free
import SoftPatchPanel.Lib.Counter

/-!
# Allocating from the heaps

`find_suitable_element` goes through the free lists from the one of the size on.  What it finds is a free element that
can hold the block (`Inv.found`), and when it finds nothing no free element of the heap can, those of the lists before
included (`Inv.heapAlloc_none`).  From this `malloc_heap_alloc` and `rte_malloc_socket`: they return a block in a new
busy element, or NULL and nothing is changed (`Inv.heapAlloc`, `Inv.mallocSocket`).
-/

namespace SoftPatchPanel.Malloc

open Lib

/-! ### The search -/

section

variable {c : MemConfig} {size : UInt64} {flags : UInt32} {align bound : UInt64} {xs : List UInt64} {alt x : UInt64}

private theorem findElement_cases (h : findElement c size flags align bound xs alt ≠ 0) :
    (findElement c size flags align bound xs alt ∈ xs ∧
      mallocElemCanHold c (findElement c size flags align bound xs alt) size align.toUInt32 bound) ∨
      findElement c size flags align bound xs alt = alt := by
  induction xs generalizing alt with
  | nil =>
    rw [findElement] at h ⊢
    split at h
    · rename_i halt
      exact Or.inr (ite_cond_eq_true _ _ (eq_true halt))
    · exact absurd rfl h
  | cons x xs ih =>
    rw [findElement] at h ⊢
    by_cases hhold : mallocElemCanHold c x size align.toUInt32 bound
    · simp only [hhold, ↓reduceIte] at h ⊢
      by_cases hpage : checkHugepageSz flags (c.hugepageSz (c.mem x).ms)
      · simp only [hpage, ↓reduceIte]
        exact Or.inl ⟨by simp, hhold⟩
      · simp only [hpage, Bool.false_eq_true, ↓reduceIte] at h ⊢
        rcases ih h with ⟨h1, h2⟩ | h1
        · exact Or.inl ⟨List.mem_cons_of_mem _ h1, h2⟩
        · rw [h1]
          split
          · exact Or.inl ⟨by simp, hhold⟩
          · exact Or.inr rfl
    · simp only [hhold, Bool.false_eq_true, ↓reduceIte] at h ⊢
      rcases ih h with ⟨h1, h2⟩ | h1
      · exact Or.inl ⟨List.mem_cons_of_mem _ h1, h2⟩
      · exact Or.inr h1

/-- Without a page size to look for, the search misses nothing. -/
private theorem findElement_eq_zero (hne : ∀ y ∈ xs, y ≠ 0) (h : findElement c size 0 align bound xs alt = 0)
    (hx : x ∈ xs) : ¬mallocElemCanHold c x size align.toUInt32 bound := by
  induction xs generalizing alt with
  | nil => cases hx
  | cons y xs ih =>
    have hpage : ∀ sz, checkHugepageSz 0 sz := fun sz => by simp [checkHugepageSz]
    rw [findElement] at h
    by_cases hhold : mallocElemCanHold c y size align.toUInt32 bound
    · simp only [hhold, hpage, ↓reduceIte] at h
      exact absurd h (hne y (by simp))
    · simp only [hhold, Bool.false_eq_true, ↓reduceIte] at h
      rcases List.mem_cons.1 hx with rfl | hx
      · exact hhold
      · exact ih (fun z hz => hne z (List.mem_cons_of_mem _ hz)) h hx

private theorem mem_listsFrom {heap : MallocHeap} {idx : Nat} :
    x ∈ heap.listsFrom idx ↔ ∃ i, idx ≤ i ∧ i < rteHeapNumFreelists ∧ x ∈ heap.freeHead i := by
  rw [MallocHeap.listsFrom, List.mem_flatMap, List.range_eq_range', List.drop_range']
  refine exists_congr fun i => ?_
  rw [List.mem_range'_1]
  constructor
  · rintro ⟨hi, hx⟩
    exact ⟨by omega, by omega, hx⟩
  · rintro ⟨h1, h2, hx⟩
    exact ⟨by omega, hx⟩

private theorem mallocElemFreeListIndex_lt (size : UInt64) : mallocElemFreeListIndex size < rteHeapNumFreelists := by
  have hpos : 0 < rteHeapNumFreelists := by decide
  simp only [mallocElemFreeListIndex]
  split
  · exact hpos
  · split <;> omega

private theorem mallocElemFreeListIndex_mono {a b : UInt64} (h : a.toNat ≤ b.toNat) :
    mallocElemFreeListIndex a ≤ mallocElemFreeListIndex b := by
  simp only [mallocElemFreeListIndex]
  by_cases ha : a.toNat ≤ 2 ^ 8
  · rw [ite_cond_eq_true _ _ (eq_true ha)]
    exact Nat.zero_le _
  · have hb : ¬b.toNat ≤ 2 ^ 8 := by omega
    have hlog : (a.toNat - 1).log2 ≤ (b.toNat - 1).log2 :=
      (Nat.le_log2 (by omega)).2 (le_trans (Nat.log2_self_le (by omega)) (by omega))
    rw [ite_cond_eq_false _ _ (eq_false ha), ite_cond_eq_false _ _ (eq_false hb)]
    split <;> split <;> omega

end

/-! ### Rounding up -/

private theorem toNat_rteCacheLineRoundup {n : UInt64} (h : n.toNat + 63 < 2 ^ 64) :
    (rteCacheLineRoundup n).toNat = 64 * ((n.toNat + 63) / 64) := by
  have hline : rteCacheLineSize.toNat = 64 := rfl
  have hsum : (n + rteCacheLineSize - 1).toNat = n.toNat + 63 := by
    rw [UInt64.toNat_sub, UInt64.toNat_add, hline]
    have hone : (1 : UInt64).toNat = 1 := rfl
    omega
  rw [rteCacheLineRoundup, UInt64.toNat_mul, UInt64.toNat_div, hsum, hline, Nat.mod_eq_of_lt (by omega)]

/-- A power of two that is rounded up to cache lines stays one. -/
private theorem roundup_two_pow (k : Nat) : 64 * ((2 ^ k + 63) / 64) = 2 ^ max 6 k ∧ max 64 (2 ^ k) = 2 ^ max 6 k := by
  rcases le_total 6 k with hk | hk
  · rw [max_eq_right hk]
    have hle : 2 ^ 6 ≤ 2 ^ k := Nat.pow_le_pow_right (by decide) hk
    obtain ⟨i, rfl⟩ := Nat.exists_eq_add_of_le hk
    refine ⟨?_, max_eq_right hle⟩
    rw [pow_add]
    omega
  · rw [max_eq_left hk]
    have hpos := Nat.two_pow_pos k
    have hle : 2 ^ k ≤ 2 ^ 6 := Nat.pow_le_pow_right (by decide) hk
    exact ⟨by omega, max_eq_left hle⟩

/-- `rte_is_power_of_2` is right. -/
private theorem isPow2_of_rteIsPowerOf2 {n : UInt32} (h : rteIsPowerOf2 n) : IsPow2 n.toUInt64 := by
  obtain ⟨hne, hand⟩ := of_decide_eq_true h
  have hpos : n.toNat ≠ 0 := fun h0 => hne (UInt32.toNat_inj.1 h0)
  have hand' : n.toNat &&& (n.toNat - 1) = 0 := by
    have h1 : (1 : UInt32) ≤ n := UInt32.le_iff_toNat_le.2 (Nat.pos_of_ne_zero hpos)
    have h2 := congrArg UInt32.toNat hand
    rwa [UInt32.toNat_and, UInt32.toNat_sub_of_le _ _ h1] at h2
  obtain ⟨k, hk⟩ := exists_pow_of_and_pred hpos hand'
  exact ⟨k, by rw [UInt32.toNat_toUInt64, hk]⟩

/-! ### A block from a heap -/

/-- What is asked of a heap: a power of two as alignment, perhaps a window that the block must not leave, and no more
than there are addresses below the memsegs. -/
structure Asked (c : MemConfig) (size align bound : UInt64) : Prop where
  pow2 : IsPow2 align
  align_lt : align.toNat < 2 ^ 32
  window : bound = 0 ∨ IsPow2 bound
  room : ∀ p ∈ c.segs, size.toNat + align.toNat + bound.toNat + 128 ≤ p.2.addr.toNat

/-- The block of `n` bytes at `d` is in the new busy element `e`; all else that was busy is kept. -/
structure Took (c : MemConfig) (chunks : Nat × Memseg → List UInt64) (c' : MemConfig)
    (chunks' : Nat × Memseg → List UInt64) (e d : UInt64) (n : Nat) : Prop where
  inv : Inv c' chunks' []
  busy : ∀ z, Busy c' chunks' z ↔ z = e ∨ Busy c chunks z
  kept : ∀ z, Busy c chunks z → Kept c c' z
  fresh : ¬Busy c chunks e
  holds : Holds c' e d n

section

variable {c c' : MemConfig} {chunks : Nat × Memseg → List UInt64} {size align bound x d : UInt64} {flags : UInt32}
  {k : Nat}

private theorem Asked.request (h : Asked c size align bound) (hs : Shape c chunks) (hx : IsElem c chunks x) :
    Request x (rteCacheLineRoundup size) (rteCacheLineRoundup align).toUInt32 bound ∧
      (rteCacheLineRoundup size).toNat = 64 * ((size.toNat + 63) / 64) ∧
      (rteCacheLineRoundup align).toUInt32.toNat = max 64 align.toNat ∧ align.toNat ∣ max 64 align.toNat := by
  obtain ⟨p, hp, hmem⟩ := hx
  have hroom := h.room p hp
  have hbounds := hs.bounds hp hmem
  have hend := (endElem p.2).toNat_lt
  obtain ⟨i, hi⟩ := h.pow2
  obtain ⟨hj, hmax⟩ := roundup_two_pow i
  have hsize := toNat_rteCacheLineRoundup (n := size) (by omega)
  have halign := toNat_rteCacheLineRoundup (n := align) (by omega)
  have hlt := h.align_lt
  have h32 : (rteCacheLineRoundup align).toUInt32.toNat = 2 ^ max 6 i := by
    rw [UInt64.toNat_toUInt32, halign, hi, hj, Nat.mod_eq_of_lt]
    have hi32 : i < 32 := (Nat.pow_lt_pow_iff_right (by decide)).1 (hi ▸ hlt)
    exact Nat.pow_lt_pow_right (by decide) (by omega)
  rw [h32, hi, hmax]
  refine ⟨⟨by rw [hsize]; exact Nat.dvd_mul_right .., ⟨max 6 i, by rw [UInt32.toNat_toUInt64, h32]⟩, ?_, h.window, ?_⟩,
    hsize, rfl, Nat.pow_dvd_pow 2 (le_max_right ..)⟩
  · rw [h32]
    exact Nat.pow_dvd_pow 2 (le_max_left ..)
  · rw [h32, ← hj, hsize, ← hi]
    omega

/-- What the search finds is a free element that can hold the block. -/
theorem Inv.found (h : Inv c chunks []) (hx : findSuitableElement c k size flags align bound ≠ 0) :
    IsElem c chunks (findSuitableElement c k size flags align bound) ∧
      (c.mem (findSuitableElement c k size flags align bound)).state = .elemFree ∧
      elemStartPt c (findSuitableElement c k size flags align bound) size align.toUInt32 bound ≠ 0 := by
  rcases findElement_cases hx with ⟨hmem, hhold⟩ | hzero
  · obtain ⟨i, -, -, hi⟩ := mem_listsFrom.1 hmem
    obtain ⟨helem, hidle, -⟩ := (h.listed k i _).1 hi
    exact ⟨helem, hidle.1, of_decide_eq_true hhold⟩
  · exact absurd hzero hx

private theorem memseg_splitElem (c : MemConfig) (x y : UInt64) : (splitElem c x y).memseg = c.memseg := rfl

private theorem memseg_mallocElemFreeListInsert (c : MemConfig) (x : UInt64) :
    (mallocElemFreeListInsert c x).memseg = c.memseg := rfl

private theorem memseg_elemFreeListRemove (c : MemConfig) (x : UInt64) :
    (elemFreeListRemove c x).memseg = c.memseg := rfl

private theorem memseg_mallocElemAlloc (c : MemConfig) (x size : UInt64) (align : UInt32) (bound : UInt64) :
    (mallocElemAlloc c x size align bound).1.memseg = c.memseg := by
  simp only [mallocElemAlloc]
  split <;> split <;> try split
  all_goals simp only [MemConfig.memseg_modify, memseg_splitElem, memseg_mallocElemFreeListInsert,
    memseg_elemFreeListRemove]

theorem Inv.heapAlloc (h : Inv c chunks []) (hask : Asked c size align bound)
    (hc' : mallocHeapAlloc c k size flags align bound = (c', d)) :
    (d = 0 ∧ c' = c ∧ findSuitableElement c k (rteCacheLineRoundup size) flags (rteCacheLineRoundup align) bound = 0) ∨
      d ≠ 0 ∧ c'.segs = c.segs ∧ ∃ chunks' e n, Took c chunks c' chunks' e d n ∧ size.toNat ≤ n ∧
        align.toNat ∣ d.toNat := by
  simp only [mallocHeapAlloc] at hc'
  by_cases hx : findSuitableElement c k (rteCacheLineRoundup size) flags (rteCacheLineRoundup align) bound ≠ 0
  · obtain ⟨helem, hfree, hstart⟩ := h.found hx
    obtain ⟨hreq, hsize, halign, hdvd⟩ := hask.request h.toShape helem
    rw [← halign] at hdvd
    rw [ite_cond_eq_true _ _ (eq_true hx)] at hc'
    generalize findSuitableElement c k (rteCacheLineRoundup size) flags (rteCacheLineRoundup align) bound = x at *
    obtain ⟨c1, y, hc1⟩ : ∃ c1 y, mallocElemAlloc c x (rteCacheLineRoundup size) (rteCacheLineRoundup align).toUInt32
      bound = (c1, y) := ⟨_, _, rfl⟩
    have hseg := memseg_mallocElemAlloc c x (rteCacheLineRoundup size) (rteCacheLineRoundup align).toUInt32 bound
    rw [hc1] at hc' hseg
    obtain ⟨chunks', e, h1, hbusy, hkept, hnot, hholds, hal⟩ := h.alloc helem hfree hreq hstart hc1
    obtain ⟨rfl, rfl⟩ := Prod.mk.inj hc'
    have hdata : (y + mallocElemHeaderLen).toNat = y.toNat + 64 ∧ 0 < y.toNat + 64 := by
      have hd := hholds.data
      have hsum : (y + mallocElemHeaderLen).toNat = (y.toNat + 64) % 2 ^ 64 := UInt64.toNat_add ..
      have hsum' : (y + 64).toNat = (y.toNat + 64) % 2 ^ 64 := UInt64.toNat_add ..
      have hy := y.toNat_lt
      omega
    refine Or.inr ⟨?_, ?_, chunks', e, _, ⟨h1.modifyHeap _ fun _ => rfl, hbusy, fun z hz =>
      (hkept z hz).trans (.of_mem (MemConfig.mem_modifyHeap ..) z), hnot,
      hholds.kept (.of_mem (MemConfig.mem_modifyHeap ..) e)⟩, by omega, ?_⟩
    · intro h0
      have hzero := congrArg UInt64.toNat h0
      rw [hdata.1] at hzero
      exact absurd hzero hdata.2.ne'
    · rw [MemConfig.segs, MemConfig.segs, MemConfig.memseg_modifyHeap, hseg]
    · rw [hdata.1]
      exact hdvd.trans hal
  · rw [ite_cond_eq_false _ _ (eq_false hx)] at hc'
    obtain ⟨rfl, rfl⟩ := Prod.mk.inj hc'
    exact Or.inl ⟨rfl, rfl, not_not.1 hx⟩

/-- One heap after another: a block from one of them, or none from any. -/
private theorem Inv.allocFirst {ks : List Nat} (h : Inv c chunks []) (hask : Asked c size align bound)
    (hc' : allocFirst c size flags align bound ks = (c', d)) :
    (d = 0 ∧ c' = c ∧ ∀ k ∈ ks, mallocHeapAlloc c k size flags align bound = (c, 0)) ∨
      d ≠ 0 ∧ ∃ k ∈ ks, mallocHeapAlloc c k size flags align bound = (c', d) := by
  induction ks with
  | nil =>
    obtain ⟨rfl, rfl⟩ := Prod.mk.inj hc'
    exact Or.inl ⟨rfl, rfl, by simp⟩
  | cons k ks ih =>
    rw [Malloc.allocFirst] at hc'
    obtain ⟨c1, d1, hc1⟩ : ∃ c1 d1, mallocHeapAlloc c k size flags align bound = (c1, d1) := ⟨_, _, rfl⟩
    simp only [hc1] at hc'
    rcases h.heapAlloc hask hc1 with ⟨rfl, rfl, -⟩ | ⟨hd, -⟩
    · rw [ite_cond_eq_false _ _ (by simp)] at hc'
      rcases ih hc' with ⟨hd, hcc, hall⟩ | ⟨hd, k', hk', hgot⟩
      · refine Or.inl ⟨hd, hcc, fun k' hk' => ?_⟩
        rcases List.mem_cons.1 hk' with rfl | hk'
        · exact hc1
        · exact hall k' hk'
      · exact Or.inr ⟨hd, k', List.mem_cons_of_mem _ hk', hgot⟩
    · rw [ite_cond_eq_true _ _ (eq_true hd)] at hc'
      obtain ⟨rfl, rfl⟩ := Prod.mk.inj hc'
      exact Or.inr ⟨hd, k, by simp, hc1⟩

private theorem Shape.end_lt (h : Shape c chunks) (hx : IsElem c chunks x) :
    x.toNat + (c.mem x).size.toNat < 2 ^ 64 := by
  obtain ⟨p, hp, hmem⟩ := hx
  have hbounds := h.bounds hp hmem
  have hend := (endElem p.2).toNat_lt
  omega

/-- When a heap has no block to give, none of its free elements can hold one: those in the lists before the first one
searched are too small. -/
theorem Inv.heapAlloc_none (h : Inv c chunks []) (hask : Asked c size align bound)
    (hnone : mallocHeapAlloc c k size 0 align bound = (c', 0)) (hx : IsElem c chunks x)
    (hfree : (c.mem x).state = .elemFree) (hk : (c.mem x).heap = k) :
    elemStartPt c x (rteCacheLineRoundup size) (rteCacheLineRoundup align).toUInt32 bound = 0 := by
  by_contra hhold
  obtain ⟨-, -, hfind⟩ := (h.heapAlloc hask hnone).resolve_right fun hr => hr.1 rfl
  obtain ⟨hreq, -⟩ := hask.request h.toShape hx
  have hsize := h.toShape.le_size hx
  have hlisted := (h.listed k (listOf (c.mem x)) x).2 ⟨hx, ⟨hfree, by simp⟩, hk, rfl⟩
  have hspec := elemStartPt_spec hreq hsize (h.toShape.end_lt hx) hhold
  have hidx : mallocElemFreeListIndex (rteCacheLineRoundup size) ≤ listOf (c.mem x) := by
    refine mallocElemFreeListIndex_mono ?_
    have hlen : mallocElemHeaderLen.toNat = 64 := rfl
    rw [toNat_sub_of_lt (by omega), hlen]
    omega
  refine findElement_eq_zero (fun y hy => ?_) hfind
    (mem_listsFrom.2 ⟨_, hidx, mallocElemFreeListIndex_lt _, hlisted⟩) (decide_eq_true hhold)
  obtain ⟨i, -, -, hi⟩ := mem_listsFrom.1 hy
  exact h.toShape.ne_zero ((h.listed k i y).1 hi).1

/-- An element that cannot hold a block has no aligned place for it behind its header. -/
private theorem no_place {align : UInt32} (hreq : Request x size align 0)
    (hfits : x.toNat + (c.mem x).size.toNat < 2 ^ 64)
    (hpos : 0 < x.toNat) (hzero : elemStartPt c x size align 0 = 0) {m : Nat} (hm : align.toNat ∣ m)
    (hlow : x.toNat + 64 ≤ m) : x.toNat + (c.mem x).size.toNat < m + size.toNat := by
  by_contra hin
  rw [not_lt] at hin
  have hmask : ∀ v : UInt64, v &&& ~~~((0 : UInt64) - 1) = 0 := fun v => UInt64.and_zero
  have hstart : elemStartPt c x size align 0 =
      newElemStart x (rteAlignFloor (x + (c.mem x).size - mallocElemTrailerLen - size) align) := by
    simp only [elemStartPt, hmask, ne_eq, not_true_eq_false, ↓reduceIte]
  have hv : (x + (c.mem x).size - mallocElemTrailerLen - size).toNat =
      x.toNat + (c.mem x).size.toNat - size.toNat := by
    have hroom := hreq.room
    have hsum : (x + (c.mem x).size).toNat = x.toNat + (c.mem x).size.toNat := by
      rw [UInt64.toNat_add, Nat.mod_eq_of_lt hfits]
    rw [show mallocElemTrailerLen = 0 from rfl, UInt64.sub_zero, toNat_sub_of_lt (by omega), hsum]
  have halign : 0 < align.toNat := hreq.pow2.pos
  have hfloor := toNat_alignFloor (x + (c.mem x).size - mallocElemTrailerLen - size) hreq.pow2
  rw [← rteAlignFloor_eq halign, hv, UInt32.toNat_toUInt64] at hfloor
  -- the greatest multiple of the alignment that leaves room is not below `m`
  have hle : m ≤ (rteAlignFloor (x + (c.mem x).size - mallocElemTrailerLen - size) align).toNat := by
    obtain ⟨q, rfl⟩ := hm
    have hq : align.toNat * q ≤ align.toNat * ((x.toNat + (c.mem x).size.toNat - size.toNat) / align.toNat) :=
      Nat.mul_le_mul_left _ ((Nat.le_div_iff_mul_le halign).2 (by rw [mul_comm]; omega))
    have hdiv := Nat.div_add_mod (x.toNat + (c.mem x).size.toNat - size.toNat) align.toNat
    rw [hfloor]
    omega
  have hlen : mallocElemHeaderLen.toNat = 64 := rfl
  have hsub : (rteAlignFloor (x + (c.mem x).size - mallocElemTrailerLen - size) align - mallocElemHeaderLen).toNat =
      (rteAlignFloor (x + (c.mem x).size - mallocElemTrailerLen - size) align).toNat - 64 := by
    rw [toNat_sub_of_lt (by omega), hlen]
  simp only [hstart, newElemStart] at hzero
  split at hzero
  · rename_i hlt
    rw [UInt64.lt_iff_toNat_lt] at hlt
    omega
  · have h0 := congrArg UInt64.toNat hzero
    rw [hsub] at h0
    have hz : (0 : UInt64).toNat = 0 := rfl
    omega

/-- The alignment that `rte_malloc_socket` passes on. -/
private theorem asked_malloc {align : UInt32} (hpow2 : align = 0 ∨ rteIsPowerOf2 align)
    (hroom : ∀ p ∈ c.segs, size.toNat + align.toNat + 129 ≤ p.2.addr.toNat) :
    Asked c size (if align = 0 then 1 else align.toUInt64) 0 := by
  by_cases h0 : align = 0
  · rw [ite_cond_eq_true _ _ (eq_true h0)]
    refine ⟨⟨0, rfl⟩, by decide, Or.inl rfl, fun p hp => ?_⟩
    have hp := hroom p hp
    have h1 : (1 : UInt64).toNat = 1 := rfl
    have h2 : (0 : UInt64).toNat = 0 := rfl
    omega
  · rw [ite_cond_eq_false _ _ (eq_false h0)]
    refine ⟨isPow2_of_rteIsPowerOf2 (hpow2.resolve_left h0), align.toNat_lt, Or.inl rfl, fun p hp => ?_⟩
    have hp := hroom p hp
    have h2 : (0 : UInt64).toNat = 0 := rfl
    rw [UInt32.toNat_toUInt64]
    omega

/-- The heaps that `rte_malloc_socket` tries. -/
def heapsTried (caller : Caller) (socketArg : Option Nat) : List Nat :=
  let socketArg := if caller.hasHugepages then socketArg else none
  heapOrder (socketArg.getD caller.numaSocket) socketArg.isNone

/-- A call with valid arguments is `malloc_heap_alloc` on one heap after another. -/
private theorem rteMallocSocket_cases {align : UInt32} {caller : Caller} {socketArg : Option Nat}
    (hc' : rteMallocSocket c caller size align socketArg = (c', d)) :
    (d = 0 ∧ c' = c ∧ (size = 0 ∨ align ≠ 0 ∧ ¬rteIsPowerOf2 align ∨
      rteMaxNumaNodes ≤ (if caller.hasHugepages then socketArg else none).getD caller.numaSocket)) ∨
      (align = 0 ∨ rteIsPowerOf2 align) ∧
        allocFirst c size 0 (if align = 0 then 1 else align.toUInt64) 0 (heapsTried caller socketArg) = (c', d) := by
  simp only [rteMallocSocket] at hc'
  split at hc'
  · rename_i hargs
    obtain ⟨rfl, rfl⟩ := Prod.mk.inj hc'
    exact Or.inl ⟨rfl, rfl, hargs.imp_right Or.inl⟩
  · rename_i hargs
    have hpow2 : align = 0 ∨ rteIsPowerOf2 align := by
      by_contra hnot
      rw [not_or] at hnot
      exact hargs (Or.inr hnot)
    rw [heapsTried]
    generalize (if caller.hasHugepages then socketArg else none) = arg at hc' ⊢
    split at hc'
    · rename_i hsocket
      obtain ⟨rfl, rfl⟩ := Prod.mk.inj hc'
      exact Or.inl ⟨rfl, rfl, Or.inr (Or.inr hsocket)⟩
    · exact Or.inr ⟨hpow2, hc'⟩

/-- `rte_malloc_socket` returns NULL and changes nothing, or a block in a new busy element. -/
theorem Inv.mallocSocket {align : UInt32} {caller : Caller} {socketArg : Option Nat} (h : Inv c chunks [])
    (hroom : ∀ p ∈ c.segs, size.toNat + align.toNat + 129 ≤ p.2.addr.toNat)
    (hc' : rteMallocSocket c caller size align socketArg = (c', d)) :
    d = 0 ∧ c' = c ∨ d ≠ 0 ∧ c'.segs = c.segs ∧ ∃ chunks' e n, Took c chunks c' chunks' e d n ∧ size.toNat ≤ n ∧
      (align = 0 ∨ align.toNat ∣ d.toNat) := by
  rcases rteMallocSocket_cases hc' with ⟨rfl, rfl, -⟩ | ⟨hpow2, hc'⟩
  · exact Or.inl ⟨rfl, rfl⟩
  · have hask := asked_malloc hpow2 hroom
    rcases h.allocFirst hask hc' with ⟨rfl, rfl, -⟩ | ⟨hd, k, -, hgot⟩
    · exact Or.inl ⟨rfl, rfl⟩
    · obtain ⟨-, hsegs, chunks', e, n, htook, hn, hal⟩ := (h.heapAlloc hask hgot).resolve_left fun hl => hd hl.1
      refine Or.inr ⟨hd, hsegs, chunks', e, n, htook, hn, ?_⟩
      by_cases h0 : align = 0
      · exact Or.inl h0
      · rw [ite_cond_eq_false _ _ (eq_false h0), UInt32.toNat_toUInt64] at hal
        exact Or.inr hal

/-- A valid call returns NULL only when no free element of the heaps tried has an aligned place for the block. -/
theorem Inv.mallocSocket_none {align : UInt32} {caller : Caller} {socketArg : Option Nat} (h : Inv c chunks [])
    (hroom : ∀ p ∈ c.segs, size.toNat + align.toNat + 129 ≤ p.2.addr.toNat) (hsize : size ≠ 0)
    (halign : align = 0 ∨ rteIsPowerOf2 align)
    (hsocket : (if caller.hasHugepages then socketArg else none).getD caller.numaSocket < rteMaxNumaNodes)
    (hnull : (rteMallocSocket c caller size align socketArg).2 = 0) (hx : IsElem c chunks x)
    (hfree : (c.mem x).state = .elemFree) (hk : (c.mem x).heap ∈ heapsTried caller socketArg) {m : Nat}
    (hm : max 64 align.toNat ∣ m) (hlow : x.toNat + 64 ≤ m) :
    x.toNat + (c.mem x).size.toNat < m + 64 * ((size.toNat + 63) / 64) := by
  obtain ⟨c', hc'⟩ : ∃ c', rteMallocSocket c caller size align socketArg = (c', 0) := ⟨_, Prod.ext rfl hnull⟩
  rcases rteMallocSocket_cases hc' with ⟨-, -, hbad⟩ | ⟨hpow2, hfirst⟩
  · rcases hbad with hbad | hbad | hbad
    · exact absurd hbad hsize
    · exact absurd halign (not_or.2 hbad)
    · exact absurd hbad (not_le.2 hsocket)
  · have hask := asked_malloc hpow2 hroom
    obtain ⟨-, -, hall⟩ := (h.allocFirst hask hfirst).resolve_right fun hr => hr.1 rfl
    have hzero := h.heapAlloc_none hask (hall _ hk) hx hfree rfl
    obtain ⟨hreq, hlines, hal, -⟩ := hask.request h.toShape hx
    have hmax : max 64 (if align = 0 then 1 else align.toUInt64).toNat = max 64 align.toNat := by
      by_cases h0 : align = 0
      · rw [ite_cond_eq_true _ _ (eq_true h0), h0]
        rfl
      · rw [ite_cond_eq_false _ _ (eq_false h0), UInt32.toNat_toUInt64]
    rw [← hmax, ← hal] at hm
    rw [← hlines]
    exact no_place hreq (h.toShape.end_lt hx) (h.toShape.pos hx) hzero hm hlow

end

end SoftPatchPanel.Malloc

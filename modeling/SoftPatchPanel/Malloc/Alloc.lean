import SoftPatchPanel.Malloc.Invariant

/-!
# Allocating

Where `elem_start_pt` puts the new element (`elemStartPt_spec`), and what `malloc_elem_alloc` makes of a free element:
the invariant holds again, there is one more busy element, it holds the block that is returned (`Holds`), and the
other busy elements are kept (`Inv.alloc`).
-/

namespace SoftPatchPanel.Malloc

open Lib

/-! ### Where the new element starts -/

/-- A request that `malloc_heap_alloc` passes on: cache lines, a power of two as alignment, and no wrap-around below the
element at `x`. -/
structure Request (x size : UInt64) (align : UInt32) (bound : UInt64) : Prop where
  lines : 64 ∣ size.toNat
  pow2 : IsPow2 align.toUInt64
  dvd : 64 ∣ align.toNat
  window : bound = 0 ∨ IsPow2 bound
  room : size.toNat + align.toNat + bound.toNat ≤ x.toNat

theorem rteAlignFloor_eq {align : UInt32} (h : 0 < align.toNat) (v : UInt64) :
    rteAlignFloor v align = alignFloor v align.toUInt64 := by
  have hsub : (align - 1).toUInt64 = align.toUInt64 - 1 := by
    apply UInt64.toNat_inj.1
    have h1 : (1 : UInt32) ≤ align := UInt32.le_iff_toNat_le.2 h
    have h2 : (1 : UInt64) ≤ align.toUInt64 := UInt64.le_iff_toNat_le.2 h
    rw [UInt32.toNat_toUInt64, UInt32.toNat_sub_of_le _ _ h1, UInt64.toNat_sub_of_le _ _ h2]
    rfl
  rw [rteAlignFloor, hsub, alignFloor]

/-- The new element lies in the old one up to the place `e`, and its data is aligned. -/
private theorem newElemStart_spec {x size e : UInt64} {align : UInt32} (hpow2 : IsPow2 align.toUInt64)
    (hdvd : 64 ∣ align.toNat) (hroom : size.toNat + align.toNat + 64 ≤ e.toNat)
    (h : newElemStart x (rteAlignFloor (e - size) align) ≠ 0) :
    x.toNat ≤ (newElemStart x (rteAlignFloor (e - size) align)).toNat ∧
      (newElemStart x (rteAlignFloor (e - size) align)).toNat + 64 + size.toNat ≤ e.toNat ∧
      align.toNat ∣ (newElemStart x (rteAlignFloor (e - size) align)).toNat + 64 := by
  have hpos : 0 < align.toNat := hpow2.pos
  have hsub : (e - size).toNat = e.toNat - size.toNat := toNat_sub_of_lt (by omega)
  have hfloor := toNat_alignFloor (e - size) hpow2
  rw [← rteAlignFloor_eq hpos, hsub, UInt32.toNat_toUInt64] at hfloor
  have hmod := Nat.mod_lt (e.toNat - size.toNat) hpos
  have hle := Nat.mod_le (e.toNat - size.toNat) align.toNat
  have hmul : align.toNat ∣ (rteAlignFloor (e - size) align).toNat := by
    rw [hfloor]
    exact Nat.dvd_sub_mod _
  have hlen : mallocElemHeaderLen.toNat = 64 := rfl
  have hstart : (rteAlignFloor (e - size) align - mallocElemHeaderLen).toNat =
      (rteAlignFloor (e - size) align).toNat - 64 := by
    rw [toNat_sub_of_lt (by omega), hlen]
  simp only [newElemStart] at h ⊢
  split at h
  · exact absurd rfl h
  · rename_i hge
    rw [UInt64.lt_iff_toNat_lt] at hge
    rw [ite_cond_eq_false _ _ (eq_false (by rw [UInt64.lt_iff_toNat_lt]; exact hge)), hstart]
    refine ⟨by omega, by omega, ?_⟩
    rw [Nat.sub_add_cancel (by omega)]
    exact hmul

theorem elemStartPt_spec {c : MemConfig} {x size bound : UInt64} {align : UInt32} (hreq : Request x size align bound)
    (hsize : 64 ≤ (c.mem x).size.toNat) (hfits : x.toNat + (c.mem x).size.toNat < 2 ^ 64)
    (h : elemStartPt c x size align bound ≠ 0) :
    x.toNat ≤ (elemStartPt c x size align bound).toNat ∧
      (elemStartPt c x size align bound).toNat + 64 + size.toNat ≤ x.toNat + (c.mem x).size.toNat ∧
      align.toNat ∣ (elemStartPt c x size align bound).toNat + 64 := by
  have hroom := hreq.room
  have he : (x + (c.mem x).size - mallocElemTrailerLen).toNat = x.toNat + (c.mem x).size.toNat := by
    rw [show mallocElemTrailerLen = 0 from rfl, UInt64.sub_zero, UInt64.toNat_add, Nat.mod_eq_of_lt hfits]
  simp only [elemStartPt] at h ⊢
  generalize x + (c.mem x).size - mallocElemTrailerLen = e at h he ⊢
  split
  · rename_i hcross
    rw [ite_cond_eq_true _ _ (eq_true hcross)] at h
    split
    · rename_i hcross'
      rw [ite_cond_eq_true _ _ (eq_true hcross')] at h
      exact absurd rfl h
    · rename_i hcross'
      rw [ite_cond_eq_false _ _ (eq_false hcross')] at h
      -- without a boundary the masks are zero, so there is one
      have hbound : IsPow2 bound := by
        rcases hreq.window with rfl | hb
        · exact absurd (by simp) hcross
        · exact hb
      have hfloor := toNat_alignFloor e hbound
      have hmod := Nat.mod_lt e.toNat hbound.pos
      have := newElemStart_spec hreq.pow2 hreq.dvd (by omega) h
      omega
  · rename_i hcross
    rw [ite_cond_eq_false _ _ (eq_false hcross)] at h
    have := newElemStart_spec hreq.pow2 hreq.dvd (by omega) h
    omega

/-! ### Elements that are not touched -/

section

variable {c c' : MemConfig} {chunks chunks' : Nat × Memseg → List UInt64} {out out' : List UInt64} {p : Nat × Memseg}
  {l r : List UInt64} {d e x y z : UInt64}

/-- An element that is busy in neither configuration need not be left out. -/
theorem Frame.shrink (h : Frame c chunks c' chunks' (y :: out)) (h1 : ¬Busy c chunks y) (h2 : ¬Busy c' chunks' y) :
    Frame c chunks c' chunks' out := by
  constructor
  · intro z hz
    by_cases hzy : z = y
    · subst hzy
      exact ⟨fun hb => absurd hb h2, fun hb => absurd hb h1⟩
    · exact h.busy z (by simp [hzy, hz])
  · intro z hz hb
    refine h.kept z ?_ hb
    rw [List.mem_cons, not_or]
    refine ⟨?_, hz⟩
    rintro rfl
    exact h1 hb

/-- An element that is not free is busy. -/
theorem Shape.busy_of_ne (h : Shape c chunks) (hz : IsElem c chunks z) (hne : (c.mem z).state ≠ .elemFree) :
    Busy c chunks z := by
  obtain ⟨p, hp, hmem⟩ := hz
  exact ⟨⟨p, hp, hmem⟩, ((h.chunked p hp).state z hmem).resolve_left hne⟩

theorem not_busy_of_free (hfree : (c.mem z).state = .elemFree) : ¬Busy c chunks z := by
  rintro ⟨-, hbusy⟩
  rw [hfree] at hbusy
  cases hbusy

private theorem Busy.not_idle (h : Busy c chunks z) : ¬Idle c out z := fun hidle => not_busy_of_free hidle.1 h

theorem not_busy_insert (c : MemConfig) (chunks : Nat × Memseg → List UInt64) (x : UInt64) :
    ¬Busy (mallocElemFreeListInsert c x) chunks x :=
  not_busy_of_free (by rw [mem_mallocElemFreeListInsert, MemConfig.mem_modify_self])

/-- A neighbour that is not free before is not free after. -/
theorem Frame.not_idle (h : Frame c chunks c' chunks' out) (hs : Shape c chunks) (hz : IsElem c chunks z)
    (hout : z ∉ out) (hidle : ¬Idle c [] z) : ¬Idle c' out' z := by
  have hbusy : Busy c chunks z := hs.busy_of_ne hz fun hfree => hidle ⟨hfree, by simp⟩
  exact ((h.busy z hout).2 hbusy).not_idle

/-! ### Blocks -/

/-- The element at `e` is busy and holds a block of `n` bytes at `d`; when there is padding, the header before the block
leads back to the element. -/
structure Holds (c : MemConfig) (e d : UInt64) (n : Nat) : Prop where
  state : (c.mem e).state = .elemBusy
  data : d.toNat = e.toNat + (c.mem e).pad.toNat + 64
  size : (c.mem e).pad.toNat + 64 + n ≤ (c.mem e).size.toNat
  fits : e.toNat + (c.mem e).size.toNat < 2 ^ 64
  lines : 64 ∣ (c.mem e).pad.toNat
  dummy : (c.mem e).pad ≠ 0 → (c.mem (d - 64)).state = .elemPad ∧ (c.mem (d - 64)).pad = (c.mem e).pad

theorem Holds.toNat_sub {n : Nat} (h : Holds c e d n) : (d - 64).toNat = e.toNat + (c.mem e).pad.toNat := by
  have hdata := h.data
  rw [toNat_sub_of_lt (by rw [hdata]; exact Nat.le_add_left _ _), hdata]
  rfl

theorem Holds.kept {n : Nat} (h : Holds c e d n) (hk : Kept c c' e) : Holds c' e d n := by
  have hsub := h.toNat_sub
  have hsize := h.size
  refine ⟨by rw [hk.state]; exact h.state, by rw [hk.pad]; exact h.data, by rw [hk.pad, hk.size]; exact hsize,
    by rw [hk.size]; exact h.fits, by rw [hk.pad]; exact h.lines, fun hpad => ?_⟩
  rw [hk.pad] at hpad ⊢
  have hpos : (c.mem e).pad.toNat ≠ 0 := fun h0 => hpad (UInt32.toNat_inj.1 h0)
  rw [hk.inside (d - 64) (by omega) (by omega)]
  exact h.dummy hpad

/-- The way back from the data to the element. -/
theorem Holds.fromData {n : Nat} (h : Holds c e d n) (hpos : 0 < e.toNat) : mallocElemFromData c d = e := by
  have hsub := h.toNat_sub
  have hd : d ≠ 0 := by
    rintro rfl
    have := h.data
    simp at this
  have hs : d - mallocElemHeaderLen ≠ 0 := by
    intro h0
    have := congrArg UInt64.toNat h0
    change (d - 64).toNat = 0 at this
    omega
  rw [mallocElemFromData, ite_cond_eq_false _ _ (eq_false hd)]
  simp only
  rw [ite_cond_eq_false _ _ (eq_false hs)]
  change (if (c.mem (d - 64)).state ≠ .elemPad then d - 64 else d - 64 - (c.mem (d - 64)).pad.toUInt64) = e
  by_cases hpad : (c.mem e).pad = 0
  · have he : d - 64 = e := by
      apply UInt64.toNat_inj.1
      rw [hsub, hpad]
      rfl
    rw [he, h.state]
    simp
  · obtain ⟨hstate, hback⟩ := h.dummy hpad
    rw [hstate, hback]
    simp only [ne_eq, not_true_eq_false, ↓reduceIte]
    apply UInt64.toNat_inj.1
    rw [toNat_sub_of_lt (by rw [UInt32.toNat_toUInt64, hsub]; omega), UInt32.toNat_toUInt64, hsub]
    omega

/-! ### Taking a free element -/

/-- What is behind the new element goes back to the lists. -/
private theorem Inv.trailer (h : Inv c chunks []) (hp : p ∈ c.segs) (hchunks : chunks p = l ++ x :: r)
    (hfree : (c.mem x).state = .elemFree) (hxy : x.toNat < y.toNat) (hy : y.toNat < x.toNat + (c.mem x).size.toNat)
    (hdvd : 64 ∣ y.toNat) :
    Inv (mallocElemFreeListInsert (splitElem (elemFreeListRemove c x) x y) y)
        (Function.update chunks p (l ++ x :: y :: r)) [x] ∧
      Frame c chunks (mallocElemFreeListInsert (splitElem (elemFreeListRemove c x) x y) y)
        (Function.update chunks p (l ++ x :: y :: r)) [x] ∧
      (mallocElemFreeListInsert (splitElem (elemFreeListRemove c x) x y) y).mem x =
        { c.mem x with size := y - x } := by
  have hx : IsElem c chunks x := ⟨p, hp, by simp [hchunks]⟩
  have hynot : ¬IsElem c chunks y := fun hy' => by
    have := h.toShape.eq_of_inside hx hy'.isHeader hxy.le hy
    subst this
    omega
  have hyx : y ≠ x := (ne_of_toNat_lt hxy).symm
  obtain ⟨h2, f2⟩ := (h.remove x).split hp hchunks hxy hy hdvd (by simp)
  have hframe := (frame_remove c chunks x [y, x]).trans f2
  have hchunks2 : Function.update chunks p (l ++ x :: y :: r) p = (l ++ [x]) ++ y :: r := by simp
  have hapart := h.apart p hp
  have hnodup := (h.chunked p hp).nodup
  rw [hchunks] at hapart hnodup
  rw [List.nodup_append, List.nodup_cons] at hnodup
  obtain ⟨h3, f3⟩ := h2.insert (by simpa using hyx) hp hchunks2 (by simp [Idle]) fun z hz => by
    have hzr := List.mem_of_mem_head? hz
    have hzelem : IsElem c chunks z := ⟨p, hp, by simp [hchunks, hzr]⟩
    refine hframe.not_idle h.toShape hzelem ?_ ((hapart.neighbours ⟨hfree, by simp⟩).2 z hz)
    simp only [List.mem_cons, List.not_mem_nil, or_false, not_or]
    constructor
    · rintro rfl
      exact hynot hzelem
    · rintro rfl
      exact hnodup.2.1.1 hzr
  refine ⟨h3, ?_, ?_⟩
  · exact (hframe.trans f3).shrink (fun hb => hynot hb.1) (not_busy_insert _ _ _)
  · obtain ⟨-, hnext, -⟩ := h.toShape.next hp hchunks
    rw [mem_mallocElemFreeListInsert, MemConfig.mem_modify_of_ne _ _ hyx.symm]
    exact mem_splitElem_self rfl (ne_of_toNat_lt (by rw [mem_elemFreeListRemove, hnext]; omega)).symm hyx

/-- The whole element becomes busy, with padding before the block. -/
private theorem Inv.takePadded {n : Nat} (h : Inv c chunks [x]) (hp : p ∈ c.segs) (hchunks : chunks p = l ++ x :: r)
    (hle : x.toNat ≤ y.toNat) (hlt : y.toNat < x.toNat + 128) (hdvd : 64 ∣ y.toNat)
    (hn : y.toNat + 64 + n ≤ x.toNat + (c.mem x).size.toNat) {f : MallocElem → MallocElem}
    (hf : ∀ e, (f e).state = .elemPad ∧ (f e).pad = (y - x).toUInt32)
    (hc' : c' = if 0 < (y - x).toUInt32 then
        (c.modify x fun e => { e with state := .elemBusy, pad := (y - x).toUInt32 }).modify y f
      else c.modify x fun e => { e with state := .elemBusy, pad := (y - x).toUInt32 }) :
    Inv c' chunks [] ∧ Frame c chunks c' chunks [x] ∧ Holds c' x (y + 64) n := by
  have hmem : x ∈ chunks p := by simp [hchunks]
  have hx : IsElem c chunks x := ⟨p, hp, hmem⟩
  have hxdvd := h.toShape.dvd hx
  have hbounds := h.toShape.bounds hp hmem
  have hend := (endElem p.2).toNat_lt
  have hsub : (y - x).toNat = y.toNat - x.toNat := toNat_sub_of_lt hle
  have hpad : ((y - x).toUInt32).toNat = y.toNat - x.toNat := by
    rw [UInt64.toNat_toUInt32, hsub]
    exact Nat.mod_eq_of_lt (by omega)
  obtain ⟨h3, f3⟩ := h.touch (y := x) (f := fun e => { e with state := .elemBusy, pad := (y - x).toUInt32 }) hp hchunks
    (le_refl _) (by omega) (by rw [MemConfig.mem_modify_self]; exact ⟨rfl, rfl, rfl, rfl⟩)
    (by rw [MemConfig.mem_modify_self]; exact Or.inr ⟨by simp, Or.inr rfl⟩)
  have hself := c.mem_modify_self x fun e => { e with state := .elemBusy, pad := (y - x).toUInt32 }
  have h3' := h3.dropOut fun hb => by
    have := hb.2
    rw [hself] at this
    cases this
  have hdata : (y + 64).toNat = y.toNat + 64 := by
    rw [UInt64.toNat_add]
    exact Nat.mod_eq_of_lt (by have : (64 : UInt64).toNat = 64 := rfl; omega)
  have hback : y + 64 - 64 = y := UInt64.add_sub_cancel ..
  by_cases hzero : 0 < (y - x).toUInt32
  · have hpos : 0 < y.toNat - x.toNat := by
      rw [UInt32.lt_iff_toNat_lt, hpad] at hzero
      exact hzero
    have hyx : y ≠ x := (ne_of_toNat_lt (by omega)).symm
    rw [ite_cond_eq_true _ _ (eq_true hzero)] at hc'
    obtain ⟨h4, f4⟩ := h3'.touch (y := y) (f := f) hp hchunks hle (by rw [hself]; simp only; omega)
      (by rw [MemConfig.mem_modify_of_ne _ _ hyx.symm]; exact ⟨rfl, rfl, rfl, rfl⟩)
      (by rw [MemConfig.mem_modify_of_ne _ _ hyx.symm]; exact Or.inl rfl)
    rw [← hc'] at h4 f4
    refine ⟨h4, (f3.mono (by simp)).trans f4, ?_⟩
    have hx' : c'.mem x = { c.mem x with state := .elemBusy, pad := (y - x).toUInt32 } := by
      rw [hc', MemConfig.mem_modify_of_ne _ _ hyx.symm, hself]
    have hy' : c'.mem y = f ((c.modify x fun e => { e with state := .elemBusy, pad := (y - x).toUInt32 }).mem y) := by
      rw [hc', MemConfig.mem_modify_self]
    constructor
    · rw [hx']
    · rw [hx', hdata, hpad]
      omega
    · rw [hx', hpad]
      simp only
      omega
    · rw [hx']
      simp only
      omega
    · rw [hx', hpad]
      exact Nat.dvd_sub hdvd hxdvd
    · intro _
      rw [hback, hx', hy']
      exact hf _
  · rw [ite_cond_eq_false _ _ (eq_false hzero)] at hc'
    rw [UInt32.lt_iff_toNat_lt, hpad] at hzero
    have hzero' : y.toNat - x.toNat = 0 := by
      change ¬0 < _ at hzero
      omega
    subst hc'
    refine ⟨h3', f3.mono (by simp), ?_⟩
    constructor
    · rw [hself]
    · rw [hself, hdata, hpad]
      omega
    · rw [hself, hpad]
      simp only
      omega
    · rw [hself]
      simp only
      omega
    · rw [hself, hpad]
      exact Nat.dvd_sub hdvd hxdvd
    · intro hne
      rw [hself] at hne
      refine absurd (UInt32.toNat_inj.1 ?_) hne
      rw [hpad, hzero']
      rfl

/-- The front of the element stays free, and the new element is cut off behind it. -/
private theorem Inv.takeSplit {n : Nat} (h : Inv c chunks [x]) (hp : p ∈ c.segs) (hchunks : chunks p = l ++ x :: r)
    (hlast : ∀ z ∈ l.getLast?, ¬Idle c [] z) (hlt : x.toNat < y.toNat) (hdvd : 64 ∣ y.toNat)
    (hn : y.toNat + 64 + n ≤ x.toNat + (c.mem x).size.toNat)
    (hc' : c' = mallocElemFreeListInsert ((splitElem c x y).modify y fun e => { e with state := .elemBusy }) x) :
    Inv c' (Function.update chunks p (l ++ x :: y :: r)) [] ∧
      Frame c chunks c' (Function.update chunks p (l ++ x :: y :: r)) [y, x] ∧
      ¬Busy c' (Function.update chunks p (l ++ x :: y :: r)) x ∧ Holds c' y (y + 64) n := by
  have hmem : x ∈ chunks p := by simp [hchunks]
  have hx : IsElem c chunks x := ⟨p, hp, hmem⟩
  have hbounds := h.toShape.bounds hp hmem
  have hend := (endElem p.2).toNat_lt
  have hyx : y ≠ x := (ne_of_toNat_lt hlt).symm
  obtain ⟨-, hnext, -⟩ := h.toShape.next hp hchunks
  obtain ⟨h2, f2⟩ := h.split hp hchunks hlt (by omega) hdvd (by simp)
  have hnew := mem_splitElem_new (c := c) (x := x) (y := y) rfl
    (ne_of_toNat_lt (by rw [hnext]; omega)).symm hyx
  have hsize : ((c.mem x).size - (y - x)).toNat = (c.mem x).size.toNat - (y.toNat - x.toNat) := by
    rw [toNat_sub_of_lt (by rw [toNat_sub_of_lt hlt.le]; omega), toNat_sub_of_lt hlt.le]
  have hchunks2 : Function.update chunks p (l ++ x :: y :: r) p = (l ++ [x]) ++ y :: r := by simp
  have hchunks3 : Function.update chunks p (l ++ x :: y :: r) p = l ++ x :: y :: r := by simp
  obtain ⟨h3, f3⟩ := h2.touch (x := y) (y := y) (f := fun e => { e with state := .elemBusy }) hp hchunks2 (le_refl _)
    (by rw [hnew]; simp only; omega) (by rw [MemConfig.mem_modify_self]; exact ⟨rfl, rfl, rfl, rfl⟩)
    (by rw [MemConfig.mem_modify_self]; exact Or.inr ⟨by simp, Or.inr rfl⟩)
  have hself := (splitElem c x y).mem_modify_self y fun e => { e with state := .elemBusy }
  have h3' := h3.dropOut fun hb => by
    have := hb.2
    rw [hself] at this
    cases this
  have hframe : Frame c chunks _ _ [y, x] := f2.trans (f3.mono (by simp))
  have hynot : ¬IsElem c chunks y := fun hy' => by
    have := h.toShape.eq_of_inside hx hy'.isHeader hlt.le (by omega)
    exact hyx this
  have hnodup := (h.chunked p hp).nodup
  rw [hchunks, List.nodup_append] at hnodup
  obtain ⟨h4, f4⟩ := h3'.insert (by simp) hp hchunks3 (fun z hz => by
    have hzl := List.mem_of_mem_getLast? hz
    have hzelem : IsElem c chunks z := ⟨p, hp, by simp [hchunks, hzl]⟩
    refine hframe.not_idle h.toShape hzelem ?_ (hlast z hz)
    simp only [List.mem_cons, List.not_mem_nil, or_false, not_or]
    constructor
    · rintro rfl
      exact hynot hzelem
    · rintro rfl
      exact hnodup.2.2 z hzl z (by simp) rfl) fun z hz => by
    obtain rfl : y = z := by simpa using hz
    rintro ⟨hstate, -⟩
    rw [hself] at hstate
    cases hstate
  rw [← hc'] at h4 f4
  have hy' : c'.mem y = { (splitElem c x y).mem y with state := .elemBusy } := by
    rw [hc', mem_mallocElemFreeListInsert, MemConfig.mem_modify_of_ne _ _ hyx, hself]
  have hdata : (y + 64).toNat = y.toNat + 64 := by
    rw [UInt64.toNat_add]
    exact Nat.mod_eq_of_lt (by have : (64 : UInt64).toNat = 64 := rfl; omega)
  have hpad : (c'.mem y).pad.toNat = 0 := by
    rw [hy', hnew]
    rfl
  have hsize' : (c'.mem y).size.toNat = (c.mem x).size.toNat - (y.toNat - x.toNat) := by
    rw [hy', hnew]
    exact hsize
  refine ⟨h4, hframe.trans (f4.mono (by simp)), ?_, ?_⟩
  · rw [hc']
    exact not_busy_insert _ _ _
  · refine ⟨by rw [hy'], by rw [hpad, hdata], by rw [hpad, hsize']; omega, by rw [hsize']; omega,
      by rw [hpad]; exact Nat.dvd_zero 64, fun hne => ?_⟩
    rw [hy', hnew] at hne
    exact absurd rfl hne

/-- A request takes one free element: the block lies in a new busy element, and the other busy elements are kept. -/
theorem Inv.alloc {size bound : UInt64} {align : UInt32} (h : Inv c chunks []) (hx : IsElem c chunks x)
    (hfree : (c.mem x).state = .elemFree) (hreq : Request x size align bound)
    (hstart : elemStartPt c x size align bound ≠ 0) (hc' : mallocElemAlloc c x size align bound = (c', y)) :
    ∃ chunks' e, Inv c' chunks' [] ∧ (∀ z, Busy c' chunks' z ↔ z = e ∨ Busy c chunks z) ∧
      (∀ z, Busy c chunks z → Kept c c' z) ∧ ¬Busy c chunks e ∧ Holds c' e (y + 64) size.toNat ∧
      align.toNat ∣ y.toNat + 64 := by
  obtain ⟨p, hp, hmem⟩ := hx
  obtain ⟨l, r, hchunks⟩ := List.append_of_mem hmem
  have hx : IsElem c chunks x := ⟨p, hp, hmem⟩
  have hbounds := h.toShape.bounds hp hmem
  have hend := (endElem p.2).toNat_lt
  obtain ⟨hle, hin, hdvd⟩ := elemStartPt_spec hreq (h.toShape.le_size hx) (by omega) hstart
  simp only [mallocElemAlloc] at hc'
  generalize elemStartPt c x size align bound = s at hc' hle hin hdvd
  have hsdvd : 64 ∣ s.toNat := (Nat.dvd_add_left (by decide : 64 ∣ 64)).1 (hreq.dvd.trans hdvd)
  have hsub : (s - x).toNat = s.toNat - x.toNat := toNat_sub_of_lt hle
  have hover : mallocElemOverhead.toNat = 64 := rfl
  have hmin : (mallocElemOverhead + minDataSize).toNat = 128 := rfl
  generalize hc2 : (if mallocElemOverhead + minDataSize < (c.mem x).size - (s - x) - size - mallocElemOverhead then
      mallocElemFreeListInsert (splitElem (elemFreeListRemove c x) x (s + (size + mallocElemOverhead)))
        (s + (size + mallocElemOverhead))
    else elemFreeListRemove c x) = c2 at hc'
  obtain ⟨ch2, r2, h2, f2, hchunks2, hin2, hsegs⟩ : ∃ ch2 r2, Inv c2 ch2 [x] ∧ Frame c chunks c2 ch2 [x] ∧
      ch2 p = l ++ x :: r2 ∧ s.toNat + 64 + size.toNat ≤ x.toNat + (c2.mem x).size.toNat ∧ c2.segs = c.segs := by
    by_cases htrailer : mallocElemOverhead + minDataSize < (c.mem x).size - (s - x) - size - mallocElemOverhead
    · rw [ite_cond_eq_true _ _ (eq_true htrailer)] at hc2
      have h1 : ((c.mem x).size - (s - x)).toNat = (c.mem x).size.toNat - (s.toNat - x.toNat) := by
        rw [toNat_sub_of_lt (by omega), hsub]
      have h2 : ((c.mem x).size - (s - x) - size).toNat = (c.mem x).size.toNat - (s.toNat - x.toNat) - size.toNat := by
        rw [toNat_sub_of_lt (by omega), h1]
      rw [UInt64.lt_iff_toNat_lt, hmin, toNat_sub_of_lt (by omega), h2, hover] at htrailer
      have hnf : (s + (size + mallocElemOverhead)).toNat = s.toNat + (size.toNat + 64) := by
        rw [UInt64.toNat_add, UInt64.toNat_add, hover, Nat.mod_eq_of_lt (by omega : size.toNat + 64 < 2 ^ 64)]
        exact Nat.mod_eq_of_lt (by omega)
      obtain ⟨h3, f3, hself⟩ := h.trailer hp hchunks hfree (y := s + (size + mallocElemOverhead)) (by omega) (by omega)
        (by rw [hnf]; exact Nat.dvd_add hsdvd (Nat.dvd_add hreq.lines (by decide)))
      rw [hc2] at h3 f3 hself
      refine ⟨_, _, h3, f3, Function.update_self .., ?_, by rw [← hc2]; rfl⟩
      rw [hself]
      simp only
      rw [toNat_sub_of_lt (by omega), hnf]
      omega
    · rw [ite_cond_eq_false _ _ (eq_false htrailer)] at hc2
      subst hc2
      exact ⟨chunks, r, h.remove x, frame_remove c chunks x [x], hchunks, hin, rfl⟩
  have hp2 : p ∈ c2.segs := by
    rw [hsegs]
    exact hp
  have hnotx : ¬Busy c chunks x := not_busy_of_free hfree
  by_cases hsmall : s - x < mallocElemOverhead + minDataSize
  · rw [ite_cond_eq_true _ _ (eq_true hsmall)] at hc'
    rw [UInt64.lt_iff_toNat_lt, hmin, hsub] at hsmall
    simp only [MemConfig.mem_modify_self] at hc'
    obtain ⟨hc4, rfl⟩ := Prod.mk.inj hc'
    obtain ⟨h4, f4, hholds⟩ := h2.takePadded hp2 hchunks2 hle (by omega) hsdvd hin2 (fun e => ⟨rfl, rfl⟩) hc4.symm
    have hframe := f2.trans f4
    have hx' : IsElem c' ch2 x := by
      refine ⟨p, ?_, by simp [hchunks2]⟩
      rw [← hc4]
      split
      · exact hp2
      · exact hp2
    refine ⟨ch2, x, h4, fun z => ?_, fun z hb => hframe.kept z ?_ hb, hnotx, hholds, hdvd⟩
    · by_cases hz : z = x
      · subst hz
        exact ⟨fun _ => Or.inl rfl, fun _ => ⟨hx', hholds.state⟩⟩
      · rw [hframe.busy z (by simpa using hz)]
        simp [hz]
    · rw [List.mem_singleton]
      rintro rfl
      exact hnotx hb
  · rw [ite_cond_eq_false _ _ (eq_false hsmall)] at hc'
    rw [UInt64.lt_iff_toNat_lt, hmin, hsub] at hsmall
    obtain ⟨hc4, rfl⟩ := Prod.mk.inj hc'
    have hapart := h.apart p hp
    have hnodup := (h.chunked p hp).nodup
    rw [hchunks] at hapart hnodup
    rw [List.nodup_append] at hnodup
    have hlast : ∀ z ∈ l.getLast?, ¬Idle c2 [] z := by
      intro z hz
      have hzl := List.mem_of_mem_getLast? hz
      refine f2.not_idle h.toShape ⟨p, hp, by simp [hchunks, hzl]⟩ ?_ ((hapart.neighbours ⟨hfree, by simp⟩).1 z hz)
      rw [List.mem_singleton]
      rintro rfl
      exact hnodup.2.2 z hzl z (by simp) rfl
    have hsnot : ¬IsElem c chunks s := fun hs => by
      have := h.toShape.eq_of_inside hx hs.isHeader hle (by omega)
      subst this
      omega
    obtain ⟨h4, f4, hxfree, hholds⟩ := h2.takeSplit hp2 hchunks2 hlast (by omega) hsdvd hin2 hc4.symm
    have hframe := (f2.mono (by simp)).trans f4
    have hs' : IsElem c' (Function.update ch2 p (l ++ x :: s :: r2)) s := by
      refine ⟨p, ?_, by simp⟩
      rw [← hc4]
      exact hp2
    refine ⟨_, s, h4, fun z => ?_, fun z hb => hframe.kept z ?_ hb, fun hb => hsnot hb.1, hholds, hdvd⟩
    · by_cases hz : z = s
      · subst hz
        exact ⟨fun _ => Or.inl rfl, fun _ => ⟨hs', hholds.state⟩⟩
      · by_cases hzx : z = x
        · subst hzx
          exact ⟨fun hb => absurd hb hxfree, fun hb => absurd (hb.resolve_left hz) hnotx⟩
        · rw [hframe.busy z (by simp [hz, hzx])]
          simp [hz]
    · simp only [List.mem_cons, List.not_mem_nil, or_false, not_or]
      constructor
      · rintro rfl
        exact hsnot hb.1
      · rintro rfl
        exact hnotx hb

end

end SoftPatchPanel.Malloc

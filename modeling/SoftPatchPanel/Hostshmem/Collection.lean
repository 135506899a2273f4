import SoftPatchPanel.Hostshmem.FirstPass
import Mathlib.Data.List.Perm.Subperm

/-!
# The first pass collects exactly the pages that the zones touch

`Touches` says in terms of addresses alone that a zone has a byte on a page.  The pages of a zone are the pages of the
layout that it touches (`ZoneAt.mem_pages_iff`), so with room for all touched pages the first pass succeeds and holds
each of them once (`firstPass_exact`).  `firstPassLens` lists the values of the counter `len` at its subtractions, of
which none wraps around.
-/

namespace SoftPatchPanel.Hostshmem

open Lib

/-! ### The counter `len` -/

/-- The values of `len` from which the search for an unused page subtracts `hugepage_sz`. -/
def skipLens (hp : UInt64) : List Memseg → Span → List UInt64
  | [], _ => []
  | p :: ps, w =>
    if p.addr64 = w.start then w.len :: skipLens hp ps (w.next hp)
    else if p.addr64 = 0 then []
    else skipLens hp ps w

/-- The values of `len` from which the loop that fills in the pages subtracts `hugepage_sz`. -/
def populateLens (hp : UInt64) : List Memseg → Span → List UInt64
  | [], _ => []
  | _ :: ps, w => if w.len = 0 then [] else w.len :: populateLens hp ps (w.next hp)

/-- The values of `len` before its subtractions in the body of the first pass for one entry. -/
def collectLens (mz : Memzone) (pages : List Memseg) : List UInt64 :=
  if mz.addr64 = 0 ∨ mz.span.start = 0 ∨ mz.span.len = 0 then []
  else
    skipLens mz.hugepageSz pages mz.span ++
      match findUnusedPage mz.hugepageSz pages 0 mz.span with
      | none => []
      | some (startPage, w) => populateLens mz.hugepageSz (pages.drop startPage) w

/-- All subtractions `len -= hugepage_sz` of the first pass: the value of `len`, and what is subtracted from it. -/
def firstPassLens : List Entry → List Memseg → List (UInt64 × UInt64)
  | [], _ => []
  | e :: es, pages =>
    (collectLens e.mz pages).map (fun len => (len, e.mz.hugepageSz)) ++
      match collectZone e.mz pages with
      | .error _ => []
      | .ok pages' => firstPassLens es pages'

private theorem skipLens_skip {hp : UInt64} {P : List Memseg} {w : Span}
    (h : ∀ p ∈ P, p.addr64 ≠ w.start ∧ p.addr64 ≠ 0) (R : List Memseg) : skipLens hp (P ++ R) w = skipLens hp R w := by
  induction P with
  | nil => rfl
  | cons p P ih =>
    obtain ⟨h1, h2⟩ := h p (by simp)
    simp only [List.cons_append, skipLens, h1, h2, ↓reduceIte]
    exact ih (fun q hq => h q (by simp [hq]))

private theorem skipLens_free {hp : UInt64} {w : Span} (hw : w.start ≠ 0) (m : Nat) :
    skipLens hp (freePages m) w = [] := by
  cases m with
  | zero => rfl
  | succ m => simp [freePages_succ, skipLens, hw.symm]

/-- Counting down from a multiple of the page size never goes below it. -/
private theorem le_of_mem_populateLens {hp : UInt64} {pages : List Memseg} {n : Nat} {w : Span}
    (hlen : w.len.toNat = n * hp.toNat) {l : UInt64} (hl : l ∈ populateLens hp pages w) : hp ≤ l := by
  induction pages generalizing n w with
  | nil => cases hl
  | cons p ps ih =>
    unfold populateLens at hl
    split at hl
    · cases hl
    · rename_i h0
      cases n with
      | zero =>
        rw [Nat.zero_mul] at hlen
        exact absurd (UInt64.toNat_inj.1 hlen) h0
      | succ n =>
        rcases List.mem_cons.1 hl with rfl | hl
        · rw [UInt64.le_iff_toNat_le, hlen, Nat.add_mul, Nat.one_mul]
          omega
        · exact ih (next_len hlen) hl

section

variable {L : Layout} {mz : Memzone} {s : Seg} {j n : Nat} {P : List Memseg}

/-- No subtraction for one zone wraps around. -/
private theorem ZoneAt.le_of_mem_collectLens (h : ZoneAt L mz s j n) (hstart : mz.span.start ≠ 0) (hP : Collected L P)
    (hbefore : ∀ p ∈ P, p.physAddr.toNat ≤ mz.physAddr.toNat) (m : Nat) {l : UInt64}
    (hl : l ∈ collectLens mz (P ++ freePages m)) : mz.hugepageSz ≤ l := by
  have hlen : mz.span.len.toNat = n * mz.hugepageSz.toNat := by rw [h.len, h.hugepageSz]
  unfold collectLens at hl
  split at hl
  · cases hl
  · -- what is left for the second loop is a multiple of the page size in both cases
    obtain ⟨w, k, hw, hfind, hskip⟩ : ∃ w : Span, ∃ k, w.len.toNat = k * mz.hugepageSz.toNat ∧
        findUnusedPage mz.hugepageSz (P ++ freePages m) 0 mz.span =
          (if m = 0 then none else some (P.length, w)) ∧
        ∀ l ∈ skipLens mz.hugepageSz (P ++ freePages m) mz.span, mz.hugepageSz ≤ l := by
      by_cases hmem : ∃ p ∈ P, p.addr64 = mz.span.start
      · obtain ⟨p, hp, hpa⟩ := hmem
        obtain ⟨A, hA, -, hne⟩ := h.eq_last_of_addr hP hbefore hp hpa
        obtain ⟨n, rfl⟩ : ∃ k, n = k + 1 := ⟨n - 1, by have := h.pos; omega⟩
        refine ⟨mz.span.next mz.hugepageSz, n, next_len hlen, h.findUnusedPage_shared hP hbefore hp hpa m, ?_⟩
        intro l hl
        rw [hA, List.append_assoc, skipLens_skip
          (fun q hq => ⟨hne q hq, hP.ne_zero q (by rw [hA]; simp [hq])⟩)] at hl
        simp only [List.cons_append, List.nil_append, skipLens, hpa, ↓reduceIte,
          skipLens_free h.next_start_ne_zero, List.mem_singleton] at hl
        rw [hl, UInt64.le_iff_toNat_le, hlen, Nat.add_mul, Nat.one_mul]
        omega
      · have hne : ∀ p ∈ P, p.addr64 ≠ mz.span.start := fun p hp he => hmem ⟨p, hp, he⟩
        refine ⟨mz.span, n, hlen, findUnusedPage_new hstart hP hne m, ?_⟩
        rw [skipLens_skip (fun q hq => ⟨hne q hq, hP.ne_zero q hq⟩), skipLens_free hstart]
        simp
    rcases List.mem_append.1 hl with hl | hl
    · exact hskip l hl
    · rw [hfind] at hl
      split at hl
      · cases hl
      · rename_i hsome
        split at hsome
        · cases hsome
        · cases hsome
          exact le_of_mem_populateLens hw hl

/-! ### Touched pages -/

/-- The zone has a byte on the page. -/
def Touches (mz : Memzone) (p : Memseg) : Prop :=
  p.addr64.toNat < mz.addr64.toNat + mz.len.toNat ∧ mz.addr64.toNat < p.addr64.toNat + p.len.toNat

/-- The pages of a zone are the pages of the layout that it touches. -/
theorem ZoneAt.mem_pages_iff (h : ZoneAt L mz s j n) (hlen : 0 < mz.len.toNat) {p : Memseg} :
    p ∈ mz.pages ↔ IsPage L p ∧ Touches mz p := by
  have hhp := h.hp_pos
  have hsz := h.hugepageSz
  have h1 := h.start_le
  have h2 := h.lt_start
  have h3 := h.end_le
  have h4 := h.lt_end
  constructor
  · intro hp
    obtain ⟨hpage, i, hi, ha, -⟩ := h.isPage hp
    have hle := Nat.mul_le_mul_right s.hugepageSz hi
    rw [Nat.succ_mul] at hle
    have hplen : p.len = mz.hugepageSz := by
      rw [h.pages_eq] at hp
      exact len_of_mem_runPages hp
    refine ⟨hpage, ?_, ?_⟩
    · omega
    · rw [hplen, hsz]
      omega
  · rintro ⟨hpage, ht1, ht2⟩
    have hplen := hpage.len_pos
    -- a byte of both lies on one of the pages of the zone, which then is `p`
    obtain ⟨a, ha⟩ : ∃ a, a = max p.addr64.toNat mz.addr64.toNat := ⟨_, rfl⟩
    have hdiv := Nat.div_add_mod (a - mz.span.start.toNat) s.hugepageSz
    rw [Nat.mul_comm] at hdiv
    have hmod := Nat.mod_lt (a - mz.span.start.toNat) hhp
    have hi : (a - mz.span.start.toNat) / s.hugepageSz < n := by
      rw [Nat.div_lt_iff_lt_mul hhp]
      omega
    obtain ⟨q, hq, hqa, -, hqlen, -⟩ := h.getElem?_pages hi
    have hqmem : q ∈ mz.pages := List.mem_of_getElem? hq
    have hql : q.len.toNat = s.hugepageSz := by rw [hqlen, hsz]
    have heq : p = q := by
      refine hpage.eq_of_virt (h.isPage hqmem).1 (a := a) ?_ ?_ ?_ ?_
      · omega
      · omega
      · omega
      · omega
    rw [heq]
    exact hqmem

/-- The pages of a zone come in ascending order of address. -/
private theorem ZoneAt.pairwise_addr (h : ZoneAt L mz s j n) :
    mz.pages.Pairwise (fun p q => p.addr64.toNat < q.addr64.toNat) := by
  rw [List.pairwise_iff_getElem]
  intro i k hi hk hik
  rw [h.length_pages] at hi hk
  obtain ⟨p, hp, hpa, -⟩ := h.getElem?_pages hi
  obtain ⟨q, hq, hqa, -⟩ := h.getElem?_pages hk
  rw [(List.getElem?_eq_some_iff.1 hp).2, (List.getElem?_eq_some_iff.1 hq).2, hpa, hqa]
  have hle := Nat.mul_le_mul_right s.hugepageSz hik
  have hhp := h.hp_pos
  rw [Nat.succ_mul] at hle
  omega

/-- A zone of a layout without a memseg at address 0 is not skipped. -/
private theorem ZoneAt.start_ne_zero (h : ZoneAt L mz s j n) (hs : s.virt ≠ 0) : mz.span.start ≠ 0 := by
  intro h0
  have := h.start
  rw [h0, UInt64.toNat_zero] at this
  omega

end

/-! ### All zones -/

private theorem firstPassLens_empty {E : List Entry} (hE : ∀ e ∈ E, e.mz.addr64 = 0) (pages : List Memseg) :
    firstPassLens E pages = [] := by
  induction E with
  | nil => rfl
  | cons e E ih =>
    have h0 := hE e (by simp)
    have he : collectZone e.mz pages = .ok pages := by simp [collectZone, h0]
    have hl : collectLens e.mz pages = [] := by simp [collectLens, h0]
    simp only [firstPassLens, he, hl, List.map_nil, List.nil_append]
    exact ih (fun a ha => hE a (by simp [ha]))

/-- With room for all pages of the zones, one unused page left over, the first pass succeeds, and its counter never
wraps around. -/
private theorem firstPass_room {L : Layout} (hL : ∀ s ∈ L.segs, s.virt ≠ 0) {es E : List Entry} (hes : ZonesOk L es)
    (hE : ∀ e ∈ E, e.mz.addr64 = 0) {P : List Memseg} (hP : Collected L P)
    (hbefore : ∀ p ∈ P, ∀ e ∈ es, p.physAddr.toNat ≤ e.mz.physAddr.toNat) {m : Nat}
    (hroom : ∀ Q : List Memseg, Q.Nodup → (∀ p ∈ Q, p ∈ P ∨ ∃ e ∈ es, p ∈ e.mz.pages) → Q.length < P.length + m) :
    (∃ pages, firstPass (es ++ E) (P ++ freePages m) = .ok pages) ∧
      ∀ x ∈ firstPassLens (es ++ E) (P ++ freePages m), x.2 ≤ x.1 := by
  induction es generalizing P m with
  | nil =>
    refine ⟨⟨_, firstPass_empty hE _⟩, ?_⟩
    intro x hx
    rw [List.nil_append] at hx
    rw [firstPassLens_empty hE] at hx
    cases hx
  | cons e es ih =>
    obtain ⟨s, j, n, hat⟩ := L.zoneAt (hes.holds e (by simp)) (hes.pos e (by simp))
    have hstart := hat.start_ne_zero (hL s hat.mem)
    have hb : ∀ p ∈ P, p.physAddr.toNat ≤ e.mz.physAddr.toNat := fun p hp => hbefore p hp e (by simp)
    have hcol := hP.join hat hstart hb
    have hm : 0 < m := by
      have := hroom P hP.nodup (fun p hp => Or.inl hp)
      omega
    have hfit : (joinPages P e.mz.pages).length < P.length + m := by
      refine hroom _ hcol.nodup ?_
      intro p hp
      rcases mem_joinPages.1 hp with hp | hp
      · exact Or.inl hp
      · exact Or.inr ⟨e, by simp, hp⟩
    have hone := (collectZone_eq hat (hes.ne_zero e (by simp)) hstart hP hb m).1 ⟨hm, by omega⟩
    obtain ⟨hok, hlens⟩ := ih hes.tail hcol (hes.before_join hat hbefore)
      (m := P.length + m - (joinPages P e.mz.pages).length) (by
        intro Q hQ hmem
        refine Nat.lt_of_lt_of_le (hroom Q hQ ?_) (by omega)
        intro p hp
        rcases hmem p hp with h | ⟨a, ha, h⟩
        · rcases mem_joinPages.1 h with h | h
          · exact Or.inl h
          · exact Or.inr ⟨e, by simp, h⟩
        · exact Or.inr ⟨a, by simp [ha], h⟩)
    refine ⟨?_, ?_⟩
    · simpa only [List.cons_append, firstPass, hone] using hok
    · intro x hx
      simp only [List.cons_append, firstPassLens, hone, List.mem_append, List.mem_map] at hx
      rcases hx with ⟨l, hl, rfl⟩ | hx
      · exact hat.le_of_mem_collectLens hstart hP hb m hl
      · exact hlens x hx

private theorem mem_pages_of_touched {L : Layout} {es : List Entry} (hholds : ∀ e ∈ es, L.Holds e.mz)
    (hpos : ∀ e ∈ es, 0 < e.mz.len.toNat) {e : Entry} (he : e ∈ es) {p : Memseg} :
    p ∈ e.mz.pages ↔ IsPage L p ∧ Touches e.mz p := by
  obtain ⟨s, j, n, hat⟩ := L.zoneAt (hholds e he) (hpos e he)
  exact hat.mem_pages_iff (hpos e he)

/-- Zones of a layout without a memseg at address 0. -/
private theorem zonesOk_of_holds {L : Layout} (hL : ∀ s ∈ L.segs, s.virt ≠ 0) {es : List Entry}
    (hholds : ∀ e ∈ es, L.Holds e.mz) (hpos : ∀ e ∈ es, 0 < e.mz.len.toNat)
    (hsorted : es.Pairwise (fun a b => a.mz.physAddr.toNat + a.mz.len.toNat ≤ b.mz.physAddr.toNat)) :
    ZonesOk L es := by
  refine ⟨hholds, hpos, ?_, hsorted⟩
  intro e he h0
  obtain ⟨s, hs, hin⟩ := hholds e he
  have hle := hin.virt_le
  rw [h0, UInt64.toNat_zero] at hle
  exact hL s hs (by omega)

/-- Page collection is exact.  For zones in ascending physical order, each inside one memseg, with fewer than
`HOSTSHMEM_MAX_PAGES` touched pages, the first pass succeeds, `len` never wraps around, and `pages` holds each touched
page once, with those of each zone next to each other in ascending order of address and `len` starting at their whole
length. -/
theorem firstPass_exact {L : Layout} (hL : ∀ s ∈ L.segs, s.virt ≠ 0) {es E : List Entry}
    (hholds : ∀ e ∈ es, L.Holds e.mz) (hpos : ∀ e ∈ es, 0 < e.mz.len.toNat)
    (hsorted : es.Pairwise (fun a b => a.mz.physAddr.toNat + a.mz.len.toNat ≤ b.mz.physAddr.toNat))
    (hE : ∀ e ∈ E, e.mz.addr64 = 0)
    (hcount : ∀ Q : List Memseg, Q.Nodup → (∀ p ∈ Q, IsPage L p ∧ ∃ e ∈ es, Touches e.mz p) →
      Q.length ≤ hostshmemMaxPages - 1) :
    ∃ P m, firstPass (es ++ E) (freePages hostshmemMaxPages) = .ok (P ++ freePages m) ∧
      P.length + m = hostshmemMaxPages ∧
      (∀ x ∈ firstPassLens (es ++ E) (freePages hostshmemMaxPages), x.2 ≤ x.1) ∧
      P.Nodup ∧ (∀ p, p ∈ P ↔ IsPage L p ∧ ∃ e ∈ es, Touches e.mz p) ∧
      ∀ e ∈ es, ∃ A Q B, P = A ++ Q ++ B ∧ (∀ p, p ∈ Q ↔ IsPage L p ∧ Touches e.mz p) ∧
        Q.Pairwise (fun p q => p.addr64.toNat < q.addr64.toNat) ∧
        e.mz.span.len.toNat = Q.length * e.mz.hugepageSz.toNat := by
  have hmem := fun e he p => @mem_pages_of_touched L es hholds hpos e he p
  have hstart : ∀ e ∈ es, e.mz.span.start ≠ 0 := by
    intro e he
    obtain ⟨s, j, n, hat⟩ := L.zoneAt (hholds e he) (hpos e he)
    exact hat.start_ne_zero (hL s hat.mem)
  have hes := zonesOk_of_holds hL hholds hpos hsorted
  have hroom : ∀ Q : List Memseg, Q.Nodup → (∀ p ∈ Q, p ∈ [] ∨ ∃ e ∈ es, p ∈ e.mz.pages) →
      Q.length < ([] : List Memseg).length + hostshmemMaxPages := by
    intro Q hQ hQmem
    have hle := hcount Q hQ (by
      intro p hp
      obtain h | ⟨e, he, hpe⟩ := hQmem p hp
      · cases h
      · obtain ⟨h1, h2⟩ := (hmem e he p).1 hpe
        exact ⟨h1, e, he, h2⟩)
    simp only [List.length_nil, hostshmemMaxPages] at hle ⊢
    omega
  obtain ⟨⟨pages, hok⟩, hlens⟩ := firstPass_room hL hes hE (Collected.nil L) (by simp) hroom
  obtain ⟨P, m, rfl, hlen, hcol⟩ := firstPass_spec hes hE (Collected.nil L) (by simp) hok
  refine ⟨P, m, hok, by simpa using hlen, hlens, hcol.collected.nodup, ?_, ?_⟩
  · intro p
    constructor
    · intro hp
      obtain h | ⟨e, he, -, hpe⟩ := hcol.mem_zone p hp
      · cases h
      · obtain ⟨h1, h2⟩ := (hmem e he p).1 hpe
        exact ⟨h1, e, he, h2⟩
    · rintro ⟨h1, e, he, h2⟩
      exact (hcol.infix_of_zone e he (hstart e he)).subset ((hmem e he p).2 ⟨h1, h2⟩)
  · intro e he
    obtain ⟨A, B, hAB⟩ := hcol.infix_of_zone e he (hstart e he)
    obtain ⟨s, j, n, hat⟩ := L.zoneAt (hholds e he) (hpos e he)
    refine ⟨A, e.mz.pages, B, hAB.symm, hmem e he, hat.pairwise_addr, ?_⟩
    rw [hat.len, hat.length_pages, hat.hugepageSz]

/-- A memseg of 2 MB pages and one of 1 GB pages. -/
def twoMemsegs : Layout where
  segs := [⟨0x7f0000000000, 0x100000000, 0x800000, 0x200000⟩, ⟨0x7f4000000000, 0x140000000, 0x40000000, 0x40000000⟩]
  pow2 := by simpa using ⟨⟨21, rfl⟩, ⟨30, rfl⟩⟩
  virt_aligned := by simp only [List.mem_cons, List.not_mem_nil, or_false, forall_eq_or_imp, forall_eq]; decide
  phys_aligned := by simp only [List.mem_cons, List.not_mem_nil, or_false, forall_eq_or_imp, forall_eq]; decide
  len_aligned := by simp only [List.mem_cons, List.not_mem_nil, or_false, forall_eq_or_imp, forall_eq]; decide
  virt_end := by simp
  phys_end := by simp
  virt_disjoint := by simp [Seg.VirtDisjoint]
  phys_disjoint := by simp [Seg.PhysDisjoint]

/-- Two zones that share a page, and one in the other memseg. -/
def threeZones : List Entry :=
  [{ mz := { addr64 := 0x7f0000001000, physAddr := 0x100001000, len := 0x200000, hugepageSz := 0x200000 } },
    { mz := { addr64 := 0x7f0000300000, physAddr := 0x100300000, len := 0x300000, hugepageSz := 0x200000 } },
    { mz := { addr64 := 0x7f4000000000, physAddr := 0x140000000, len := 0x1000, hugepageSz := 0x40000000 } }]

theorem firstPass_exact_threeZones :
    ∃ P m, firstPass (threeZones ++ [({} : Entry)]) (freePages hostshmemMaxPages) = .ok (P ++ freePages m) ∧ P.Nodup := by
  have hholds : ∀ e ∈ threeZones, twoMemsegs.Holds e.mz := by
    simp only [threeZones, List.mem_cons, List.not_mem_nil, or_false, forall_eq_or_imp, forall_eq]
    refine ⟨⟨_, List.mem_cons_self, ?_⟩, ⟨_, List.mem_cons_self, ?_⟩,
      ⟨_, List.mem_cons_of_mem _ List.mem_cons_self, ?_⟩⟩
    all_goals exact ⟨by decide, by decide, by decide, by decide⟩
  have hpos : ∀ e ∈ threeZones, 0 < e.mz.len.toNat := by decide
  obtain ⟨P, m, h1, -, -, h2, -⟩ := firstPass_exact (L := twoMemsegs) (E := [({} : Entry)]) (by simp [twoMemsegs]) hholds hpos
    (by decide) (by decide) (by
      intro Q hQ htouched
      have hsub : Q ⊆ threeZones.flatMap (fun e => e.mz.pages) := by
        intro p hp
        obtain ⟨hpage, e, he, ht⟩ := htouched p hp
        exact List.mem_flatMap.2 ⟨e, he, (mem_pages_of_touched hholds hpos he).2 ⟨hpage, ht⟩⟩
      exact (hQ.subperm hsub).length_le.trans (by decide +kernel))
  exact ⟨P, m, h1, h2⟩

end SoftPatchPanel.Hostshmem

import SoftPatchPanel.Hostshmem.Layout

/-!
# The first pass collects the pages of the zones

The zones come in ascending physical order, so the only page of a zone that can be in the array already is its first
one, and then it is the last page collected so far.  One zone therefore extends the collected pages by its own ones,
the first of them shared or not (`collectZone_eq`), and in the end the pages of every zone are neighbours
(`firstPass_spec`).
-/

namespace SoftPatchPanel.Hostshmem

open Lib

/-- The collected pages: pages of the layout, not at address 0, in ascending physical order. -/
structure Collected (L : Layout) (P : List Memseg) : Prop where
  isPage : ∀ p ∈ P, IsPage L p
  ne_zero : ∀ p ∈ P, p.addr64 ≠ 0
  sorted : P.Pairwise (fun p q => p.physAddr.toNat + p.len.toNat ≤ q.physAddr.toNat)

theorem Collected.nil (L : Layout) : Collected L [] := ⟨by simp, by simp, List.Pairwise.nil⟩

theorem Collected.nodup {L : Layout} {P : List Memseg} (h : Collected L P) : P.Nodup := by
  refine h.sorted.imp_of_mem ?_
  rintro p q hp - hle rfl
  have := (h.isPage p hp).len_pos
  omega

/-- The pages `Q` of a zone behind the collected pages `P`, with a shared first page stored once. -/
def joinPages (P Q : List Memseg) : List Memseg := if P.getLast? = Q.head? then P ++ Q.tail else P ++ Q

private theorem joinPages_suffix (P : List Memseg) {Q : List Memseg} (hQ : Q ≠ []) : ∃ A, joinPages P Q = A ++ Q := by
  unfold joinPages
  split
  · rename_i h
    obtain ⟨q, Q', rfl⟩ := List.exists_cons_of_ne_nil hQ
    obtain ⟨A, rfl⟩ := List.getLast?_eq_some_iff.1 h
    exact ⟨A, by simp⟩
  · exact ⟨P, rfl⟩

private theorem prefix_joinPages (P Q : List Memseg) : P <+: joinPages P Q := by
  unfold joinPages
  split <;> exact List.prefix_append _ _

theorem mem_joinPages {P Q : List Memseg} {p : Memseg} : p ∈ joinPages P Q ↔ p ∈ P ∨ p ∈ Q := by
  unfold joinPages
  split
  · rename_i h
    cases Q with
    | nil => simp
    | cons q Q =>
      have hq : q ∈ P := List.mem_of_getLast? h
      simp only [List.tail_cons, List.mem_append, List.mem_cons]
      constructor
      · rintro (h | h)
        · exact Or.inl h
        · exact Or.inr (Or.inr h)
      · rintro (h | rfl | h)
        · exact Or.inl h
        · exact Or.inl hq
        · exact Or.inr h
  · exact List.mem_append

/-! ### The two loops for one zone -/

private theorem findUnusedPage_skip {hp : UInt64} {P : List Memseg} {w : Span}
    (h : ∀ p ∈ P, p.addr64 ≠ w.start ∧ p.addr64 ≠ 0) (R : List Memseg) (i : Nat) :
    findUnusedPage hp (P ++ R) i w = findUnusedPage hp R (i + P.length) w := by
  induction P generalizing i with
  | nil => rfl
  | cons p P ih =>
    obtain ⟨h1, h2⟩ := h p (by simp)
    simp only [List.cons_append, findUnusedPage, h1, h2, ↓reduceIte, List.length_cons]
    rw [ih (fun q hq => h q (by simp [hq]))]
    congr 1; omega

private theorem findUnusedPage_free {hp : UInt64} {w : Span} (hw : w.start ≠ 0) (m i : Nat) :
    findUnusedPage hp (freePages m) i w = if m = 0 then none else some (i, w) := by
  cases m with
  | zero => rfl
  | succ m => simp [freePages_succ, findUnusedPage, hw.symm]

theorem next_len {hp : UInt64} {w : Span} {n : Nat} (hlen : w.len.toNat = (n + 1) * hp.toNat) :
    (w.next hp).len.toNat = n * hp.toNat := by
  rw [Nat.add_mul, Nat.one_mul] at hlen
  unfold Span.next
  rw [UInt64.toNat_sub_of_le _ _ (by rw [UInt64.le_iff_toNat_le]; omega)]
  omega

/-- The second loop fills in as many pages as the zone still has, if there is room for them. -/
private theorem populatePages_eq {hp : UInt64} (hhp : 0 < hp.toNat) {n : Nat} {w : Span}
    (hlen : w.len.toNat = n * hp.toNat) (m : Nat) :
    (n ≤ m → populatePages hp (freePages m) w =
      (runPages hp w.start w.phys n ++ freePages (m - n), 0)) ∧
    (m < n → (populatePages hp (freePages m) w).2 ≠ 0) := by
  induction m generalizing n w with
  | zero =>
    have h0 : w.len = 0 ↔ n = 0 := by
      rw [← UInt64.toNat_inj, hlen]; simp; omega
    constructor
    · intro h
      obtain rfl : n = 0 := by omega
      simp [populatePages, runPages, h0.2 rfl]
    · intro h
      simp only [freePages_zero, populatePages, ne_eq, h0]; omega
  | succ m ih =>
    cases n with
    | zero =>
      have h0 : w.len = 0 := by rw [← UInt64.toNat_inj, hlen]; simp
      simp [freePages_succ, populatePages, runPages, h0]
    | succ n =>
      have h0 : w.len ≠ 0 := by
        rw [ne_eq, ← UInt64.toNat_inj, hlen]
        exact (Nat.mul_pos (Nat.succ_pos n) hhp).ne'
      obtain ⟨ih1, ih2⟩ := ih (next_len hlen)
      constructor
      · intro h
        simp only [freePages_succ, populatePages, h0, ↓reduceIte, ih1 (by omega), runPages]
        simp [Span.next]
      · intro h
        simp only [freePages_succ, populatePages, h0, ↓reduceIte]
        exact ih2 (by omega)

/-! ### One zone -/

section

variable {L : Layout} {mz : Memzone} {s : Seg} {j n : Nat} {P : List Memseg}

theorem ZoneAt.head?_pages (h : ZoneAt L mz s j n) :
    mz.pages.head? = some { physAddr := mz.span.phys, addr64 := mz.span.start, len := mz.hugepageSz } := by
  obtain ⟨n, rfl⟩ : ∃ m, n = m + 1 := ⟨n - 1, by have := h.pos; omega⟩
  rw [h.pages_eq]; rfl

theorem ZoneAt.pages_ne_nil (h : ZoneAt L mz s j n) : mz.pages ≠ [] := by
  intro he
  have := h.head?_pages
  rw [he] at this
  cases this

/-- A collected page at the address of the zone's first page is that page, and it is the last one collected. -/
theorem ZoneAt.eq_last_of_addr (h : ZoneAt L mz s j n) (hP : Collected L P)
    (hbefore : ∀ p ∈ P, p.physAddr.toNat ≤ mz.physAddr.toNat) {p : Memseg} (hp : p ∈ P)
    (haddr : p.addr64 = mz.span.start) :
    ∃ A, P = A ++ [p] ∧ some p = mz.pages.head? ∧ ∀ q ∈ A, q.addr64 ≠ mz.span.start := by
  have hhead := List.mem_of_head? h.head?_pages
  have hfirst := (h.isPage hhead).1
  have hhp := h.hugepageSz
  have hpos := h.hp_pos
  have heq : ∀ q ∈ P, q.addr64 = mz.span.start →
      q = { physAddr := mz.span.phys, addr64 := mz.span.start, len := mz.hugepageSz } := by
    intro q hq hqa
    have hqpos := (hP.isPage q hq).len_pos
    refine (hP.isPage q hq).eq_of_virt hfirst (a := mz.span.start.toNat) ?_ ?_ ?_ ?_
    · rw [hqa]
    · rw [hqa]; omega
    · exact Nat.le_refl _
    · simp only; omega
  have hpe := heq p hp haddr
  obtain ⟨A, B, rfl⟩ := List.append_of_mem hp
  have hsorted := hP.sorted
  rw [List.pairwise_append, List.pairwise_cons] at hsorted
  obtain ⟨-, ⟨hpB, -⟩, hAp⟩ := hsorted
  -- a page behind `p` would start behind the zone
  have hB : B = [] := by
    rcases B with _ | ⟨b, B⟩
    · rfl
    · have h1 := hpB b (by simp)
      have h2 := hbefore b (by simp)
      have h3 := h.physAddr
      have h4 := h.lt_start
      have h5 := h.start_le
      rw [hpe] at h1
      simp only at h1
      omega
  subst hB
  refine ⟨A, rfl, by rw [hpe, h.head?_pages], ?_⟩
  intro q hq hqa
  have h1 := hAp q hq p (by simp)
  rw [hpe, heq q (by simp [hq]) hqa] at h1
  simp only at h1
  omega

/-- The body of the first pass from the place on where it has found the rest `w` of the zone to be new: it succeeds exactly
when a page is free and the `n` pages of the rest fit. -/
private theorem collectZone_of_find {w : Span} (haddr : mz.addr64 ≠ 0) (hstart : mz.span.start ≠ 0)
    (hlen0 : mz.span.len ≠ 0) (hhp : 0 < mz.hugepageSz.toNat) (hlen : w.len.toNat = n * mz.hugepageSz.toNat) {m : Nat}
    (hfind : findUnusedPage mz.hugepageSz (P ++ freePages m) 0 mz.span = if m = 0 then none else some (P.length, w)) :
    (0 < m ∧ P.length + n ≤ P.length + m → collectZone mz (P ++ freePages m) =
      .ok (P ++ runPages mz.hugepageSz w.start w.phys n ++ freePages (P.length + m - (P.length + n)))) ∧
    (¬(0 < m ∧ P.length + n ≤ P.length + m) → ∃ f, collectZone mz (P ++ freePages m) = .error f) := by
  have hcond : ¬(mz.addr64 = 0 ∨ mz.span.start = 0 ∨ mz.span.len = 0) := by
    simp [haddr, hstart, hlen0]
  obtain ⟨hpop1, hpop2⟩ := populatePages_eq hhp hlen m
  unfold collectZone
  rw [ite_cond_eq_false _ _ (eq_false hcond), hfind]
  constructor
  · rintro ⟨hm, hfit⟩
    rw [ite_cond_eq_false _ _ (by simp; omega)]
    simp only [List.drop_left, List.take_left, hpop1 (by omega), ↓reduceIte]
    rw [List.append_assoc, show P.length + m - (P.length + n) = m - n by omega]
  · intro hno
    by_cases hm : m = 0
    · exact ⟨_, by rw [ite_cond_eq_true _ _ (eq_true hm)]⟩
    · refine ⟨.noSpaceForPages, ?_⟩
      rw [ite_cond_eq_false _ _ (eq_false hm)]
      simp only [List.drop_left, List.take_left]
      rw [ite_cond_eq_false _ _ (eq_false (hpop2 (by omega)))]

/-- The page after the first one of a zone is not at address 0. -/
theorem ZoneAt.next_start_ne_zero (h : ZoneAt L mz s j (n + 1)) : (mz.span.next mz.hugepageSz).start ≠ 0 := by
  have h1 := L.virt_end s h.mem
  have h2 := h.fits
  have h3 := h.start
  have h4 := h.hugepageSz
  have h5 := h.hp_pos
  rw [Nat.add_mul, Nat.one_mul] at h2
  simp only [Span.next, ne_eq, ← UInt64.toNat_inj, UInt64.toNat_add, UInt64.toNat_zero]
  rw [Nat.mod_eq_of_lt (by omega)]; omega

/-- The search when the first page of the zone is there already: it goes on with the rest of the zone. -/
theorem ZoneAt.findUnusedPage_shared (h : ZoneAt L mz s j (n + 1)) (hP : Collected L P)
    (hbefore : ∀ p ∈ P, p.physAddr.toNat ≤ mz.physAddr.toNat) {p : Memseg} (hp : p ∈ P)
    (hpa : p.addr64 = mz.span.start) (m : Nat) :
    findUnusedPage mz.hugepageSz (P ++ freePages m) 0 mz.span =
      if m = 0 then none else some (P.length, mz.span.next mz.hugepageSz) := by
  obtain ⟨A, hA, -, hne⟩ := h.eq_last_of_addr hP hbefore hp hpa
  rw [hA, List.append_assoc, findUnusedPage_skip
    (fun q hq => ⟨hne q hq, hP.ne_zero q (by rw [hA]; simp [hq])⟩)]
  simp only [List.cons_append, List.nil_append, findUnusedPage, hpa, ↓reduceIte, List.length_append,
    List.length_cons, List.length_nil, Nat.zero_add]
  exact findUnusedPage_free h.next_start_ne_zero _ _

/-- The search when no page of the zone is there. -/
theorem findUnusedPage_new (hstart : mz.span.start ≠ 0) (hP : Collected L P)
    (hne : ∀ p ∈ P, p.addr64 ≠ mz.span.start) (m : Nat) :
    findUnusedPage mz.hugepageSz (P ++ freePages m) 0 mz.span = if m = 0 then none else some (P.length, mz.span) := by
  rw [findUnusedPage_skip (fun q hq => ⟨hne q hq, hP.ne_zero q hq⟩), Nat.zero_add]
  exact findUnusedPage_free hstart _ _

/-- The body of the first pass for one zone: it succeeds exactly when a page is free and the pages fit, and then
adds the pages of the zone. -/
theorem collectZone_eq (h : ZoneAt L mz s j n) (haddr : mz.addr64 ≠ 0) (hstart : mz.span.start ≠ 0)
    (hP : Collected L P) (hbefore : ∀ p ∈ P, p.physAddr.toNat ≤ mz.physAddr.toNat) (m : Nat) :
    (0 < m ∧ (joinPages P mz.pages).length ≤ P.length + m →
      collectZone mz (P ++ freePages m) =
        .ok (joinPages P mz.pages ++ freePages (P.length + m - (joinPages P mz.pages).length))) ∧
    (¬(0 < m ∧ (joinPages P mz.pages).length ≤ P.length + m) → ∃ f, collectZone mz (P ++ freePages m) = .error f) := by
  have hhp : 0 < mz.hugepageSz.toNat := by rw [h.hugepageSz]; exact h.hp_pos
  have hlen : mz.span.len.toNat = n * mz.hugepageSz.toNat := by rw [h.len, h.hugepageSz]
  have hlen0 : mz.span.len ≠ 0 := by
    rw [ne_eq, ← UInt64.toNat_inj, hlen]
    exact (Nat.mul_pos h.pos hhp).ne'
  by_cases hmem : ∃ p ∈ P, p.addr64 = mz.span.start
  · -- the first page is shared with the zone before
    obtain ⟨p, hp, hpa⟩ := hmem
    obtain ⟨A, hA, hhead, -⟩ := h.eq_last_of_addr hP hbefore hp hpa
    have hjoin : joinPages P mz.pages = P ++ mz.pages.tail := by
      unfold joinPages
      rw [hA, ← hhead]; simp
    obtain ⟨n, rfl⟩ : ∃ k, n = k + 1 := ⟨n - 1, by have := h.pos; omega⟩
    have htail : mz.pages.tail =
        runPages mz.hugepageSz (mz.span.next mz.hugepageSz).start (mz.span.next mz.hugepageSz).phys n := by
      rw [h.pages_eq]; rfl
    rw [hjoin, htail, List.length_append, length_runPages]
    exact collectZone_of_find haddr hstart hlen0 hhp (next_len hlen) (h.findUnusedPage_shared hP hbefore hp hpa m)
  · -- all pages of the zone are new
    have hne : ∀ p ∈ P, p.addr64 ≠ mz.span.start := fun p hp he => hmem ⟨p, hp, he⟩
    have hjoin : joinPages P mz.pages = P ++ mz.pages := by
      unfold joinPages
      rw [h.head?_pages]
      split
      · rename_i hlast
        exact absurd rfl (hne _ (List.mem_of_getLast? hlast))
      · rfl
    rw [hjoin, h.pages_eq, List.length_append, length_runPages]
    exact collectZone_of_find haddr hstart hlen0 hhp hlen (findUnusedPage_new hstart hP hne m)

private theorem ZoneAt.sorted_pages (h : ZoneAt L mz s j n) :
    mz.pages.Pairwise (fun p q => p.physAddr.toNat + p.len.toNat ≤ q.physAddr.toNat) := by
  rw [List.pairwise_iff_getElem]
  intro i k hi hk hik
  rw [h.length_pages] at hi hk
  obtain ⟨p, hp, -, hpφ, hplen, -⟩ := h.getElem?_pages hi
  obtain ⟨q, hq, -, hqφ, -⟩ := h.getElem?_pages hk
  rw [(List.getElem?_eq_some_iff.1 hp).2, (List.getElem?_eq_some_iff.1 hq).2, hpφ, hqφ, hplen, h.hugepageSz]
  have := Nat.mul_le_mul_right s.hugepageSz hik
  rw [Nat.succ_mul] at this
  omega

private theorem eq_head_or_before (h : ZoneAt L mz s j n) {p : Memseg} (hp : IsPage L p)
    (hbefore : p.physAddr.toNat ≤ mz.physAddr.toNat) :
    some p = mz.pages.head? ∨ p.physAddr.toNat + p.len.toNat ≤ mz.span.phys.toNat := by
  have hfirst := (h.isPage (List.mem_of_head? h.head?_pages)).1
  have h1 := h.physAddr
  have h2 := h.lt_start
  have h3 := h.start_le
  have h4 := h.hugepageSz
  rcases hp.eq_or_disjoint hfirst with he | ⟨-, hd⟩
  · left; rw [he, h.head?_pages]
  · right
    simp only at hd
    omega

theorem Collected.join (hP : Collected L P) (h : ZoneAt L mz s j n) (hstart : mz.span.start ≠ 0)
    (hbefore : ∀ p ∈ P, p.physAddr.toNat ≤ mz.physAddr.toNat) : Collected L (joinPages P mz.pages) := by
  have hge : ∀ q ∈ mz.pages, mz.span.phys.toNat ≤ q.physAddr.toNat := by
    intro q hq
    obtain ⟨-, i, -, -, hφ⟩ := h.isPage hq
    omega
  refine ⟨?_, ?_, ?_⟩
  · intro p hp
    rcases mem_joinPages.1 hp with hp | hp
    · exact hP.isPage p hp
    · exact (h.isPage hp).1
  · intro p hp
    rcases mem_joinPages.1 hp with hp | hp
    · exact hP.ne_zero p hp
    · obtain ⟨-, i, -, ha, -⟩ := h.isPage hp
      intro h0
      rw [h0, UInt64.toNat_zero] at ha
      exact hstart (UInt64.toNat_inj.1 (by rw [UInt64.toNat_zero]; omega))
  · unfold joinPages
    split
    · -- the shared first page lies before the rest of the zone
      obtain ⟨q, Q, hQ⟩ := List.exists_cons_of_ne_nil h.pages_ne_nil
      have hsorted := h.sorted_pages
      rw [hQ, List.pairwise_cons] at hsorted
      have hqφ : q.physAddr = mz.span.phys := by
        have := h.head?_pages
        rw [hQ] at this
        cases this; rfl
      rw [hQ, List.tail_cons]
      refine List.pairwise_append.2 ⟨hP.sorted, hsorted.2, ?_⟩
      intro p hp r hr
      have hqr := hsorted.1 r hr
      rcases eq_head_or_before h (hP.isPage p hp) (hbefore p hp) with he | hle
      · rw [hQ] at he
        cases he; exact hqr
      · rw [hqφ] at hqr; omega
    · rename_i hlast
      refine List.pairwise_append.2 ⟨hP.sorted, h.sorted_pages, ?_⟩
      intro p hp r hr
      rcases eq_head_or_before h (hP.isPage p hp) (hbefore p hp) with he | hle
      · exfalso
        rw [h.head?_pages] at he
        cases he
        obtain ⟨A, hA, hhead, -⟩ := h.eq_last_of_addr hP hbefore hp rfl
        exact hlast (by rw [hA, ← hhead]; simp)
      · exact Nat.le_trans hle (hge r hr)

private theorem ZoneAt.pages_before (h : ZoneAt L mz s j n) {p : Memseg} (hp : p ∈ mz.pages) {b : Nat}
    (hb : mz.physAddr.toNat + mz.len.toNat ≤ b) : p.physAddr.toNat ≤ b := by
  obtain ⟨-, i, hi, -, hφ⟩ := h.isPage hp
  have hle := Nat.mul_le_mul_right s.hugepageSz hi
  rw [Nat.succ_mul] at hle
  have h1 := h.lt_end
  have h2 := h.physAddr
  have h3 := h.start_le
  omega

end

/-! ### All zones -/

/-- The entries of a config in ascending physical order: non-empty zones of the layout, one behind the other. -/
structure ZonesOk (L : Layout) (es : List Entry) : Prop where
  holds : ∀ e ∈ es, L.Holds e.mz
  pos : ∀ e ∈ es, 0 < e.mz.len.toNat
  ne_zero : ∀ e ∈ es, e.mz.addr64 ≠ 0
  sorted : es.Pairwise (fun a b => a.mz.physAddr.toNat + a.mz.len.toNat ≤ b.mz.physAddr.toNat)

theorem ZonesOk.tail {L : Layout} {e : Entry} {es : List Entry} (h : ZonesOk L (e :: es)) : ZonesOk L es :=
  ⟨fun a ha => h.holds a (by simp [ha]), fun a ha => h.pos a (by simp [ha]),
    fun a ha => h.ne_zero a (by simp [ha]), (List.pairwise_cons.1 h.sorted).2⟩

/-- The pages collected after a zone start before the zones that follow. -/
theorem ZonesOk.before_join {L : Layout} {e : Entry} {es : List Entry} (h : ZonesOk L (e :: es)) {s : Seg} {j n : Nat}
    (hat : ZoneAt L e.mz s j n) {P : List Memseg}
    (hbefore : ∀ p ∈ P, ∀ a ∈ e :: es, p.physAddr.toNat ≤ a.mz.physAddr.toNat) :
    ∀ p ∈ joinPages P e.mz.pages, ∀ a ∈ es, p.physAddr.toNat ≤ a.mz.physAddr.toNat := by
  intro p hp a ha
  rcases mem_joinPages.1 hp with hp | hp
  · exact hbefore p hp a (by simp [ha])
  · exact hat.pages_before hp ((List.pairwise_cons.1 h.sorted).1 a ha)

theorem firstPass_empty {E : List Entry} (hE : ∀ e ∈ E, e.mz.addr64 = 0) (pages : List Memseg) :
    firstPass E pages = .ok pages := by
  induction E with
  | nil => rfl
  | cons e E ih =>
    have he : collectZone e.mz pages = .ok pages := by simp [collectZone, hE e (by simp)]
    simp only [firstPass, he]
    exact ih (fun a ha => hE a (by simp [ha]))

private theorem collectZone_skip {mz : Memzone} (h : mz.span.start = 0) (pages : List Memseg) :
    collectZone mz pages = .ok pages := by
  simp [collectZone, h]

/-- What a successful first pass leaves behind: pages of the layout in ascending physical order and then free ones,
each page being a page of some zone, and the pages of each zone being neighbours.  A zone on page 0 is skipped. -/
structure Collects (L : Layout) (es : List Entry) (P₀ P : List Memseg) : Prop where
  collected : Collected L P
  infix_of_zone : ∀ e ∈ es, e.mz.span.start ≠ 0 → e.mz.pages <:+: P
  mem_zone : ∀ p ∈ P, p ∈ P₀ ∨ ∃ e ∈ es, e.mz.span.start ≠ 0 ∧ p ∈ e.mz.pages
  grows : P₀ <+: P

theorem firstPass_spec {L : Layout} {es E : List Entry} (hes : ZonesOk L es) (hE : ∀ e ∈ E, e.mz.addr64 = 0)
    {P : List Memseg} (hP : Collected L P)
    (hbefore : ∀ p ∈ P, ∀ e ∈ es, p.physAddr.toNat ≤ e.mz.physAddr.toNat) {m : Nat} {pages : List Memseg}
    (hok : firstPass (es ++ E) (P ++ freePages m) = .ok pages) :
    ∃ P' m', pages = P' ++ freePages m' ∧ P'.length + m' = P.length + m ∧ Collects L es P P' := by
  induction es generalizing P m with
  | nil =>
    rw [List.nil_append, firstPass_empty hE] at hok
    cases hok
    exact ⟨P, m, rfl, rfl, hP, by simp, fun p hp => Or.inl hp, List.prefix_rfl⟩
  | cons e es ih =>
    obtain ⟨s, j, n, hat⟩ := L.zoneAt (hes.holds e (by simp)) (hes.pos e (by simp))
    have hb : ∀ p ∈ P, p.physAddr.toNat ≤ e.mz.physAddr.toNat := fun p hp => hbefore p hp e (by simp)
    simp only [List.cons_append, firstPass] at hok
    by_cases hstart : e.mz.span.start = 0
    · rw [collectZone_skip hstart] at hok
      obtain ⟨P', m', h1, h2, h3⟩ := ih hes.tail hP (fun p hp a ha => hbefore p hp a (by simp [ha])) hok
      refine ⟨P', m', h1, h2, h3.collected, ?_, ?_, h3.grows⟩
      · intro a ha h0
        rcases List.mem_cons.1 ha with rfl | ha
        · exact absurd hstart h0
        · exact h3.infix_of_zone a ha h0
      · intro p hp
        rcases h3.mem_zone p hp with h | ⟨a, ha, h⟩
        · exact Or.inl h
        · exact Or.inr ⟨a, by simp [ha], h⟩
    · obtain ⟨hyes, hno⟩ := collectZone_eq hat (hes.ne_zero e (by simp)) hstart hP hb m
      by_cases hroom : 0 < m ∧ (joinPages P e.mz.pages).length ≤ P.length + m
      · rw [hyes hroom] at hok
        have hcol := hP.join hat hstart hb
        obtain ⟨P', m', h1, h2, h3⟩ := ih hes.tail hcol (hes.before_join hat hbefore) hok
        refine ⟨P', m', h1, by omega, h3.collected, ?_, ?_, (prefix_joinPages _ _).trans h3.grows⟩
        · intro a ha h0
          rcases List.mem_cons.1 ha with rfl | ha
          · obtain ⟨A, hA⟩ := joinPages_suffix P hat.pages_ne_nil
            exact (List.IsSuffix.isInfix ⟨A, hA.symm⟩).trans h3.grows.isInfix
          · exact h3.infix_of_zone a ha h0
        · intro p hp
          rcases h3.mem_zone p hp with h | ⟨a, ha, h⟩
          · rcases mem_joinPages.1 h with h | h
            · exact Or.inl h
            · exact Or.inr ⟨e, by simp, hstart, h⟩
          · exact Or.inr ⟨a, by simp [ha], h⟩
      · obtain ⟨f, hf⟩ := hno hroom
        rw [hf] at hok
        cases hok

end SoftPatchPanel.Hostshmem

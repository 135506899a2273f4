import SoftPatchPanel.Hostshmem.Cache
import SoftPatchPanel.Hostshmem.Metadata
import Mathlib.Data.List.Sort

/-!
# The entries of a config and the four passes together

Zones that pass the overlap test are disjoint, physically too, and `qsort` puts them in ascending physical order
with the free entries last, which is what the passes of `build_config` rest on (`addMemzoneToMetadata_zonesOk`).
`buildConfig_packed` collects what the four passes then leave in the config.
-/

namespace SoftPatchPanel.Hostshmem

open Lib

/-- What is assumed of `qsort` with `entry_compare`. -/
structure SortsEntries (qsort : List Entry → List Entry) : Prop where
  perm : ∀ l, (qsort l).Perm l
  sorted : ∀ l, (qsort l).Pairwise (fun a b => entryCompare a b ≤ 0)

/-- The order of the entries: ascending physical addresses, free entries last. -/
theorem entryCompare_le_zero {a b : Entry} :
    entryCompare a b ≤ 0 ↔ b.mz.addr64 = 0 ∨ (a.mz.addr64 ≠ 0 ∧ a.mz.physAddr.toNat ≤ b.mz.physAddr.toNat) := by
  unfold entryCompare
  by_cases hb : b.mz.addr64 = 0
  · by_cases ha : a.mz.addr64 = 0 <;> simp [ha, hb]
  · by_cases ha : a.mz.addr64 = 0
    · simp [ha, hb]
    · by_cases hlt : a.mz.physAddr > b.mz.physAddr
      · have := UInt64.lt_iff_toNat_lt.1 hlt
        simp only [ha, hb, hlt, false_and, ↓reduceIte, ne_eq, not_false_eq_true, true_and, false_or]
        omega
      · have : ¬b.mz.physAddr.toNat < a.mz.physAddr.toNat := fun h => hlt (UInt64.lt_iff_toNat_lt.2 h)
        simp only [ha, hb, hlt, false_and, ↓reduceIte, ne_eq, not_false_eq_true, true_and, false_or]
        omega

theorem entryCompare_trans {a b c : Entry} (hab : entryCompare a b ≤ 0) (hbc : entryCompare b c ≤ 0) :
    entryCompare a c ≤ 0 := by
  rw [entryCompare_le_zero] at hab hbc ⊢
  rcases hbc with h | ⟨h1, h2⟩
  · exact Or.inl h
  · rcases hab with h | ⟨h3, h4⟩
    · exact absurd h h1
    · exact Or.inr ⟨h3, h4.trans h2⟩

theorem freeLast_of_le {a b : Entry} (h : entryCompare a b ≤ 0) (ha : a.mz.addr64 = 0) : b.mz.addr64 = 0 := by
  rcases entryCompare_le_zero.1 h with hb | ⟨hne, -⟩
  · exact hb
  · exact absurd ha hne

/-- Insertion sort does what is assumed of `qsort`. -/
def sortEntries (l : List Entry) : List Entry := l.insertionSort (fun a b => entryCompare a b ≤ 0)

theorem sortEntries_sorts : SortsEntries sortEntries := by
  have : Std.Total (fun a b : Entry => entryCompare a b ≤ 0) := ⟨fun a b => by
    rw [entryCompare_le_zero, entryCompare_le_zero]
    by_cases ha : a.mz.addr64 = 0
    · exact Or.inr (Or.inl ha)
    · by_cases hb : b.mz.addr64 = 0
      · exact Or.inl (Or.inl hb)
      · rcases Nat.le_total a.mz.physAddr.toNat b.mz.physAddr.toNat with h | h
        · exact Or.inl (Or.inr ⟨ha, h⟩)
        · exact Or.inr (Or.inr ⟨hb, h⟩)⟩
  have : IsTrans Entry (fun a b => entryCompare a b ≤ 0) := ⟨fun _ _ _ => entryCompare_trans⟩
  exact ⟨fun l => List.perm_insertionSort _ l, fun l => List.pairwise_insertionSort _ l⟩

/-! ### The overlap test -/

section

variable {L : Layout} {mz : Memzone}

private theorem Layout.Holds.end_lt (h : L.Holds mz) : mz.addr64.toNat + mz.len.toNat < 2 ^ 64 := by
  obtain ⟨s, hs, -, hend, -⟩ := h
  have := L.virt_end s hs
  omega

private theorem disjoint_of_not_overlap {mz' : Memzone} (h : L.Holds mz) (h' : L.Holds mz')
    (hov : overlap mz mz' = false) :
    mz.addr64.toNat + mz.len.toNat ≤ mz'.addr64.toNat ∨ mz'.addr64.toNat + mz'.len.toNat ≤ mz.addr64.toNat := by
  simp only [overlap, decide_eq_false_iff_not, not_or, UInt64.le_iff_toNat_le, UInt64.lt_iff_toNat_lt,
    UInt64.toNat_add, Nat.mod_eq_of_lt h.end_lt, Nat.mod_eq_of_lt h'.end_lt] at hov
  omega

/-- The zones of two entries have no physical address in common. -/
def Entry.Apart (a b : Entry) : Prop :=
  a.mz.physAddr.toNat + a.mz.len.toNat ≤ b.mz.physAddr.toNat ∨
    b.mz.physAddr.toNat + b.mz.len.toNat ≤ a.mz.physAddr.toNat

private theorem apart_of_not_overlap {a b : Entry} (ha : L.Holds a.mz) (hb : L.Holds b.mz)
    (hov : overlap a.mz b.mz = false) : a.Apart b := by
  have hd := disjoint_of_not_overlap ha hb hov
  obtain ⟨s, hs, h1, h2, -, h3⟩ := ha
  obtain ⟨t, ht, h4, h5, -, h6⟩ := hb
  unfold Entry.Apart
  by_cases hst : s = t
  · subst hst
    omega
  · rcases L.phys_disjoint.forall hs ht hst with h | h <;> omega

private theorem overlap_free {e : Entry} (hpos : 0 < mz.len.toNat) (he : e.mz.addr64 = 0)
    (hov : overlap mz e.mz = false) : mz.addr64 ≠ 0 := by
  intro h0
  simp only [overlap, decide_eq_false_iff_not, not_or, he, h0, UInt64.zero_add, UInt64.lt_iff_toNat_lt,
    UInt64.toNat_zero] at hov
  exact hov.2 ⟨UInt64.le_refl 0, hpos⟩

/-! ### The slot of a new zone -/

/-- Where the used entries end and the free ones start is determined. -/
theorem append_eq_append_of_used {es E A B : List Entry} {e : Entry} (hes : ∀ a ∈ es, a.mz.addr64 ≠ 0)
    (hE : ∀ a ∈ E, a.mz.addr64 = 0) (hA : ∀ a ∈ A, a.mz.addr64 ≠ 0) (he : e.mz.addr64 = 0)
    (h : es ++ E = A ++ e :: B) : es = A ∧ E = e :: B := by
  rcases List.append_eq_append_iff.1 h with ⟨D, rfl, rfl⟩ | ⟨D, rfl, hD⟩
  · cases D with
    | nil => exact ⟨(List.append_nil _).symm, rfl⟩
    | cons d D => exact absurd (hE d (by simp)) (hA d (by simp))
  · cases D with
    | nil => exact ⟨List.append_nil _, hD.symm⟩
    | cons d D =>
      rw [List.cons_append, List.cons.injEq] at hD
      exact absurd (hD.1 ▸ he) (hes d (by simp))

private theorem findFreeSlot_ok {es E : List Entry} (hes : ∀ e ∈ es, e.mz.addr64 ≠ 0)
    (hE : ∀ e ∈ E, e.mz.addr64 = 0) {i k : Nat} (h : findFreeSlot mz (es ++ E) i = .ok k) :
    k = i + es.length ∧ (∀ e ∈ es, overlap mz e.mz = false) ∧
      ∃ e E', E = e :: E' ∧ overlap mz e.mz = false := by
  obtain ⟨A, e, B, heq, rfl, he, hov, hA⟩ := findFreeSlot_eq_ok h
  obtain ⟨rfl, rfl⟩ := append_eq_append_of_used hes hE (fun a ha => (hA a ha).1) he heq
  exact ⟨rfl, fun a ha => (hA a ha).2, e, B, rfl, hov⟩

/-- Entries with the free ones last are the used ones followed by the free ones. -/
theorem eq_used_append_free {l : List Entry} (h : l.Pairwise (fun a b => a.mz.addr64 = 0 → b.mz.addr64 = 0)) :
    l = l.filter (fun e => e.mz.addr64 ≠ 0) ++ l.filter (fun e => e.mz.addr64 = 0) := by
  induction l with
  | nil => rfl
  | cons e l ih =>
    rw [List.pairwise_cons] at h
    by_cases he : e.mz.addr64 = 0
    · -- nothing but free entries may follow a free one
      have hall : ∀ a ∈ l, a.mz.addr64 = 0 := fun a ha => h.1 a ha he
      have h1 : l.filter (fun e => e.mz.addr64 ≠ 0) = [] := by
        rw [List.filter_eq_nil_iff]
        intro a ha
        simp [hall a ha]
      have h2 : l.filter (fun e => e.mz.addr64 = 0) = l := by
        rw [List.filter_eq_self]
        intro a ha
        simp [hall a ha]
      simp only [List.filter_cons, he, ne_eq, not_true_eq_false, decide_false, Bool.false_eq_true, ↓reduceIte,
        decide_true] at h1 h2 ⊢
      rw [h1, h2, List.nil_append]
    · simp only [List.filter_cons, he, ne_eq, not_false_eq_true, decide_true, ↓reduceIte, decide_false,
        Bool.false_eq_true, List.cons_append]
      rw [← ih h.2]

/-! ### The invariant -/

/-- The entries of a config: zones of the layout in ascending physical order, then free entries. -/
structure Config.Holds (L : Layout) (config : Config) (es E : List Entry) : Prop where
  entry : config.entry = es ++ E
  zones : ZonesOk L es
  free : ∀ e ∈ E, e.mz.addr64 = 0
  cache : config.memsegCache.length = hostshmemMaxPages

theorem Config.create_holds (L : Layout) (name : CStr) :
    (Config.create name).Holds L [] (List.replicate hostshmemMaxEntries {}) := by
  refine ⟨rfl, ⟨by simp, by simp, by simp, List.Pairwise.nil⟩, fun e he => ?_, by simp [Config.create]⟩
  rw [List.eq_of_mem_replicate he]

/-- `qsort` puts the zones of a config with a new zone in order. -/
private theorem qsort_zonesOk {qsort : List Entry → List Entry} (hq : SortsEntries qsort) {config : Config}
    {es E : List Entry} (hc : config.Holds L es E) (hmz : L.Holds mz) (hpos : 0 < mz.len.toNat) {i : Nat}
    (hslot : findFreeSlot mz config.entry 0 = .ok i) :
    ∃ es' E', qsort (config.insert i mz).entry = es' ++ E' ∧ ZonesOk L es' ∧ (∀ e ∈ E', e.mz.addr64 = 0) ∧
      (es'.map Entry.mz).Perm (es.map Entry.mz ++ [mz]) := by
  rw [hc.entry] at hslot
  obtain ⟨hi, hov, e₀, E₀, rfl, hov₀⟩ := findFreeSlot_ok hc.zones.ne_zero hc.free hslot
  rw [Nat.zero_add] at hi
  have haddr := overlap_free hpos (hc.free e₀ (by simp)) hov₀
  obtain ⟨e, hemz, hins⟩ : ∃ e : Entry, e.mz = mz ∧ (config.insert i mz).entry = es ++ e :: E₀ :=
    ⟨{ e₀ with mz := mz }, rfl, by simp [Config.insert, hc.entry, hi]⟩
  have hfree : ∀ a ∈ E₀, a.mz.addr64 = 0 := fun a ha => hc.free a (by simp [ha])
  have hused : (es ++ e :: E₀).filter (fun e => e.mz.addr64 ≠ 0) = es ++ [e] := by
    rw [List.filter_append, List.filter_cons_of_pos (by simp [hemz, haddr]),
      List.filter_eq_self.2 (fun a ha => by simp [hc.zones.ne_zero a ha]),
      List.filter_eq_nil_iff.2 (fun a ha => by simp [hfree a ha])]
  rw [hins]
  have hperm := hq.perm (es ++ e :: E₀)
  have hsorted := hq.sorted (es ++ e :: E₀)
  have hzperm : ((qsort (es ++ e :: E₀)).filter (fun e => e.mz.addr64 ≠ 0)).Perm (es ++ [e]) := by
    have := hperm.filter (fun e => decide (e.mz.addr64 ≠ 0))
    rwa [hused] at this
  have hall : ∀ P : Memzone → Prop, (∀ a ∈ es, P a.mz) → P mz →
      ∀ a ∈ (qsort (es ++ e :: E₀)).filter (fun e => e.mz.addr64 ≠ 0), P a.mz := by
    intro P h1 h2 a ha
    rcases List.mem_append.1 (hzperm.subset ha) with h | h
    · exact h1 a h
    · rw [List.mem_singleton.1 h, hemz]; exact h2
  refine ⟨_, _, eq_used_append_free (hsorted.imp freeLast_of_le), ⟨hall L.Holds hc.zones.holds hmz,
    hall (fun mz => 0 < mz.len.toNat) hc.zones.pos hpos, hall (fun mz => mz.addr64 ≠ 0) hc.zones.ne_zero haddr, ?_⟩,
    ?_, ?_⟩
  · -- the zones are apart, and that does not depend on their order
    have hapart : (es ++ [e]).Pairwise Entry.Apart := by
      rw [List.pairwise_append]
      refine ⟨hc.zones.sorted.imp Or.inl, List.pairwise_singleton _ _, ?_⟩
      intro a ha b hb
      rw [List.mem_singleton.1 hb]
      have := apart_of_not_overlap (a := e) (b := a) (by rw [hemz]; exact hmz) (hc.zones.holds a ha)
        (by rw [hemz]; exact hov a ha)
      exact Or.symm this
    have hapart' := (hzperm.pairwise_iff (fun h => Or.symm h)).2 hapart
    refine (List.Pairwise.and_mem.1 (hapart'.and (hsorted.filter _))).imp ?_
    rintro a b ⟨-, hb, hab, hle⟩
    have hbpos := hall (fun mz => 0 < mz.len.toNat) hc.zones.pos hpos b hb
    have hb0 := hall (fun mz => mz.addr64 ≠ 0) hc.zones.ne_zero haddr b hb
    rcases entryCompare_le_zero.1 hle with h0 | ⟨-, h⟩
    · exact absurd h0 hb0
    · rcases hab with h1 | h1 <;> omega
  · intro a ha
    simpa using (List.mem_filter.1 ha).2
  · have := hzperm.map Entry.mz
    simpa [hemz] using this

end

/-! ### What `build_config` leaves behind -/

theorem buildConfig_ok {env : Env} {config config' : Config} (h : buildConfig env config = .ok config') :
    ∃ collected pages entry msLocal,
      firstPass (env.qsort config.entry) (freePages hostshmemMaxPages) = .ok collected ∧
      secondPass collected = .ok pages ∧ thirdPass pages (env.qsort config.entry) = .ok entry ∧
      fourthPass env.hugefile pages config.memsegCache 0 = .ok msLocal ∧
      config' = { config with
        entry := entry, hpEntries := writeHpEntries msLocal pages 0 config.hpEntries, memsegCache := msLocal } := by
  unfold buildConfig at h
  split at h
  · cases h
  simp only at h
  split at h
  · cases h
  rename_i collected h1
  split at h
  · cases h
  rename_i pages h2
  split at h
  · cases h
  rename_i entry h3
  split at h
  · cases h
  rename_i msLocal h4
  cases h
  exact ⟨collected, pages, entry, msLocal, h1, h2, h3, h4, rfl⟩

/-- The pages `P` behind a config with the zones `es`: each page once, each belonging to a zone, and the pages of
each zone as neighbours. -/
structure Packed (L : Layout) (es : List Entry) (P : List Memseg) : Prop where
  isPage : ∀ p ∈ P, IsPage L p
  ne_zero : ∀ p ∈ P, p.addr64 ≠ 0
  nodup : P.Nodup
  sizeSum_lt : sizeSum P < 2 ^ 64
  mem_zone : ∀ p ∈ P, ∃ e ∈ es, p ∈ e.mz.pages
  infix_of_zone : ∀ e ∈ es, e.mz.pages <:+: P

/-- The order of the pages on the device: big pages first, pages of one size by ascending physical address. -/
def PageLe (p q : Memseg) : Prop := q.size < p.size ∨ (q.size = p.size ∧ p.physAddr.toNat ≤ q.physAddr.toNat)

instance (p q : Memseg) : Decidable (PageLe p q) := inferInstanceAs (Decidable (_ ∨ _ ∧ _))

theorem Packed.used {L : Layout} {es : List Entry} {P : List Memseg} (h : Packed L es P) : Used P :=
  fun p hp => ⟨h.ne_zero p hp, (h.isPage p hp).len_pos⟩

/-- The first two passes and the third: the pages are packed, and each entry gets the offset of its zone. -/
private theorem passes_packed {L : Layout} {es E : List Entry} (hes : ZonesOk L es) (hE : ∀ e ∈ E, e.mz.addr64 = 0)
    {collected pages : List Memseg} {entry : List Entry}
    (h1 : firstPass (es ++ E) (freePages hostshmemMaxPages) = .ok collected)
    (h2 : secondPass collected = .ok pages) (h3 : thirdPass pages (es ++ E) = .ok entry) :
    ∃ es' P m, entry = es' ++ E ∧ es'.map Entry.mz = es.map Entry.mz ∧ pages = P ++ freePages m ∧
      P.length + m = hostshmemMaxPages ∧ Packed L es P ∧ P.Pairwise PageLe ∧
      ∀ e ∈ es', findOffset e.mz.addr64 pages 0 = some e.offset := by
  rw [← List.nil_append (freePages hostshmemMaxPages)] at h1
  obtain ⟨P₁, m, rfl, hlen, hcol⟩ := firstPass_spec hes hE (Collected.nil L) (by simp) h1
  obtain ⟨P₂, hsel, hsecond⟩ := secondPass_eq hcol.collected.used m
  rw [hsecond] at h2
  cases h2
  obtain ⟨es', rfl, hmz, hoff⟩ := thirdPass_ok hes.ne_zero hE h3
  have hst := hsel.stable
  have hpage : ∀ p ∈ P₂, IsPage L p := fun p hp => hcol.collected.isPage p (hst.perm.subset hp)
  have hne : ∀ p ∈ P₂, p.addr64 ≠ 0 := fun p hp => hcol.collected.ne_zero p (hst.perm.subset hp)
  -- the third pass found every zone, so none of them lies on page 0
  have hstart : ∀ e ∈ es, e.mz.span.start ≠ 0 := by
    intro e he h0
    obtain ⟨s, j, n, hat⟩ := L.zoneAt (hes.holds e he) (hes.pos e he)
    obtain ⟨e', he', heq⟩ : ∃ e' ∈ es', e'.mz = e.mz := by
      have : e.mz ∈ es'.map Entry.mz := by rw [hmz]; exact List.mem_map_of_mem he
      simpa using this
    have := hoff e' he'
    rw [heq, findOffset_page_zero hat h0 hpage hne m] at this
    cases this
  have hsorted : P₂.Pairwise PageLe := by
    refine (hst.pairwise hcol.collected.sorted).imp fun {p q} hpq => ?_
    rcases hpq with hlt | ⟨heq, hphys⟩
    · exact Or.inl hlt
    · exact Or.inr ⟨heq, by omega⟩
  refine ⟨es', P₂, m, rfl, hmz, rfl, ?_, ⟨hpage, hne, ?_, ?_, ?_, ?_⟩, hsorted, hoff⟩
  · rw [hst.perm.length_eq]
    simpa using hlen
  · exact hst.perm.nodup_iff.2 hcol.collected.nodup
  · rw [sizeSum_perm hst.perm]
    exact hcol.collected.sizeSum_lt
  · intro p hp
    rcases hcol.mem_zone p (hst.perm.subset hp) with h | ⟨e, he, -, h⟩
    · simp at h
    · exact ⟨e, he, h⟩
  · intro e he
    obtain ⟨A, B, hAB⟩ := hcol.infix_of_zone e he (hstart e he)
    rw [← hAB] at hst
    obtain ⟨A', B', h⟩ := hst.block (k := e.mz.hugepageSz.toNat)
      (fun c hc => congrArg UInt64.toNat (len_of_mem_runPages hc))
    exact ⟨A', B', h.symm⟩

/-- What a successful call of `add_memzone_to_metadata` makes of a config, with the pages that its passes leave. -/
theorem addMemzoneToMetadata_pages {L : Layout} {env : Env} {mz : Memzone} {config config' : Config}
    {es E : List Entry} (hq : SortsEntries env.qsort) (hc : config.Holds L es E) (hmz : L.Holds mz)
    (hpos : 0 < mz.len.toNat) (hadd : addMemzoneToMetadata env mz config = (config', none)) :
    ∃ i collected es' E' P m, findFreeSlot mz config.entry 0 = .ok i ∧
      firstPass (env.qsort (config.insert i mz).entry) (freePages hostshmemMaxPages) = .ok collected ∧
      secondPass collected = .ok (P ++ freePages m) ∧
      config'.Holds L es' E' ∧ (es'.map Entry.mz).Perm (es.map Entry.mz ++ [mz]) ∧
      P.length + m = hostshmemMaxPages ∧ Packed L es' P ∧ P.Pairwise PageLe ∧
      (∀ e ∈ es', findOffset e.mz.addr64 (P ++ freePages m) 0 = some e.offset) ∧
      fourthPass env.hugefile (P ++ freePages m) config.memsegCache 0 = .ok config'.memsegCache ∧
      config'.hpEntries = writeHpEntries config'.memsegCache (P ++ freePages m) 0 config.hpEntries := by
  obtain ⟨i, hslot, hbuild⟩ := addMemzoneToMetadata_ok hadd
  obtain ⟨collected, pages, entry, ms, h1, h2, h3, h4, rfl⟩ := buildConfig_ok hbuild
  obtain ⟨es', E', hsort, hzones, hfree, hperm⟩ := qsort_zonesOk hq hc hmz hpos hslot
  have hfirst := h1
  rw [hsort] at h1 h3
  obtain ⟨es'', P, m, rfl, hmz', rfl, hlen, hpacked, hsorted, hoff⟩ := passes_packed hzones hfree h1 h2 h3
  have hall : ∀ Q : Memzone → Prop, (∀ a ∈ es', Q a.mz) → ∀ a ∈ es'', Q a.mz := by
    intro Q h a ha
    have : a.mz ∈ es'.map Entry.mz := by rw [← hmz']; exact List.mem_map_of_mem ha
    obtain ⟨b, hb, hab⟩ := List.mem_map.1 this
    rw [← hab]
    exact h b hb
  have hzones' : ZonesOk L es'' := by
    refine ⟨hall L.Holds hzones.holds, hall (fun mz => 0 < mz.len.toNat) hzones.pos,
      hall (fun mz => mz.addr64 ≠ 0) hzones.ne_zero, ?_⟩
    have := hzones.sorted
    rw [← List.pairwise_map (f := Entry.mz) (R := fun a b => a.physAddr.toNat + a.len.toNat ≤ b.physAddr.toNat)]
      at this ⊢
    rwa [hmz']
  have hpacked' : Packed L es'' P := by
    refine ⟨hpacked.isPage, hpacked.ne_zero, hpacked.nodup, hpacked.sizeSum_lt, ?_,
      hall (fun mz => mz.pages <:+: P) hpacked.infix_of_zone⟩
    intro p hp
    obtain ⟨e, he, h⟩ := hpacked.mem_zone p hp
    have : e.mz ∈ es''.map Entry.mz := by rw [hmz']; exact List.mem_map_of_mem he
    obtain ⟨e', he', heq⟩ := List.mem_map.1 this
    exact ⟨e', he', by rw [heq]; exact h⟩
  have hcache : ms.length = hostshmemMaxPages :=
    (fourthPass_sameBytes hpacked.used m hc.cache (Nat.zero_le _) (by simpa using hpacked.sizeSum_lt) h4).1
  exact ⟨i, collected, es'', E', P, m, hslot, hfirst, h2, ⟨rfl, hzones', hfree, hcache⟩, by rw [hmz']; exact hperm, hlen,
    hpacked', hsorted, hoff, h4, rfl⟩

/-- What a successful call of `add_memzone_to_metadata` makes of a config. -/
theorem addMemzoneToMetadata_packed {L : Layout} {env : Env} {mz : Memzone} {config config' : Config}
    {es E : List Entry} (hq : SortsEntries env.qsort) (hc : config.Holds L es E) (hmz : L.Holds mz)
    (hpos : 0 < mz.len.toNat) (hadd : addMemzoneToMetadata env mz config = (config', none)) :
    ∃ es' E' P m, config'.Holds L es' E' ∧ (es'.map Entry.mz).Perm (es.map Entry.mz ++ [mz]) ∧
      P.length + m = hostshmemMaxPages ∧ Packed L es' P ∧ P.Pairwise PageLe ∧
      (∀ e ∈ es', findOffset e.mz.addr64 (P ++ freePages m) 0 = some e.offset) ∧
      fourthPass env.hugefile (P ++ freePages m) config.memsegCache 0 = .ok config'.memsegCache ∧
      config'.hpEntries = writeHpEntries config'.memsegCache (P ++ freePages m) 0 config.hpEntries := by
  obtain ⟨-, -, es', E', P, m, -, -, -, h⟩ := addMemzoneToMetadata_pages hq hc hmz hpos hadd
  exact ⟨es', E', P, m, h⟩

end SoftPatchPanel.Hostshmem

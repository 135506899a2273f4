import SoftPatchPanel.Hostshmem.Shape

/-!
# The order of registration

Every successful call sorts the entries anew and computes all offsets from the zones alone, so what earlier calls left
behind in the offsets and in the order of the entries does not matter.  Zones with distinct physical addresses have
one sorted order.  Hence the entries of a config depend on the set of its zones only (`entry_eq_of_perm`).
-/

namespace SoftPatchPanel.Hostshmem

open Lib

/-! ### The passes look at the zones only -/

private theorem firstPass_congr {es es' : List Entry} (h : es.map Entry.mz = es'.map Entry.mz) (pages : List Memseg) :
    firstPass es pages = firstPass es' pages := by
  induction es generalizing es' pages with
  | nil =>
    cases es' with
    | nil => rfl
    | cons e' es' => cases h
  | cons e es ih =>
    cases es' with
    | nil => cases h
    | cons e' es' =>
      rw [List.map_cons, List.map_cons, List.cons.injEq] at h
      rw [firstPass, firstPass, h.1]
      cases collectZone e'.mz pages with
      | error f => rfl
      | ok pages' => exact ih h.2 pages'

private theorem thirdPass_congr {es es' : List Entry} (h : es.map Entry.mz = es'.map Entry.mz)
    (hes : ∀ e ∈ es, e.mz.addr64 ≠ 0) (pages : List Memseg) (E : List Entry) :
    thirdPass pages (es ++ E) = thirdPass pages (es' ++ E) := by
  induction es generalizing es' with
  | nil =>
    cases es' with
    | nil => rfl
    | cons e' es' => cases h
  | cons e es ih =>
    cases es' with
    | nil => cases h
    | cons e' es' =>
      rw [List.map_cons, List.map_cons, List.cons.injEq] at h
      have he : e'.mz.addr64 ≠ 0 := by rw [← h.1]; exact hes e (by simp)
      simp only [List.cons_append, thirdPass, he, ↓reduceIte, h.1, ih h.2 (fun a ha => hes a (by simp [ha]))]

/-- The first three passes on entries with the zones `Z`, followed by `E`. -/
def placeZones (Z : List Memzone) (E : List Entry) : Except Failure (List Entry) :=
  match firstPass (Z.map (⟨·, 0⟩) ++ E) (freePages hostshmemMaxPages) with
  | .error f => .error f
  | .ok collected =>
    match secondPass collected with
    | .error f => .error f
    | .ok pages => thirdPass pages (Z.map (⟨·, 0⟩) ++ E)

/-- A successful call computes the entries from the zones in sorted order. -/
private theorem Config.Splits.placeZones {config : Config} {es E : List Entry} (h : config.Splits es E) {a : Add}
    (hq : SortsEntries a.env.qsort) (hmz : a.mz.addr64 ≠ 0) (hok : config.Succeeds a) :
    ∃ Z E', Hostshmem.placeZones Z E' = .ok (config.add a).entry ∧ Z.Perm (a.mz :: config.zones) ∧
      Z.Pairwise (fun x y => x.physAddr.toNat ≤ y.physAddr.toNat) ∧ (∀ e ∈ E', e = {}) ∧
      Z.length + E'.length = config.entry.length := by
  rcases config.add_cases a with ⟨-, hfail, -⟩ | ⟨A, e, B, hentry, -, he, hA, ⟨-, hfail⟩ | ⟨hbuild, -⟩⟩
  · exact absurd hok hfail
  · exact absurd hok hfail
  obtain ⟨collected, pages, entry, ms, h1, h2, h3, -, hnew⟩ := buildConfig_ok hbuild
  have hins := h.insert hentry he (fun x hx => (hA x hx).1) hmz
  obtain ⟨es₁, E₁, hsort, hperm, hpermE⟩ := hins.qsort hq.movesEmptyLast
  have hused : ∀ x ∈ es₁, x.mz.addr64 ≠ 0 := fun x hx => hins.used x (hperm.subset hx)
  have hzones : (es₁.map Entry.mz).Perm (a.mz :: config.zones) := by
    have hz := Config.zones_insert hentry he hmz
    rw [hins.zones_eq] at hz
    exact (hperm.map Entry.mz).trans hz
  have hmap : ((es₁.map Entry.mz).map (fun mz => (⟨mz, 0⟩ : Entry))).map Entry.mz = es₁.map Entry.mz := by
    rw [List.map_map]
    exact List.map_id _
  rw [hsort] at h1 h3
  refine ⟨es₁.map Entry.mz, E₁, ?_, hzones, ?_, fun x hx => hins.free x (hpermE.subset hx), ?_⟩
  · have hfirst : firstPass ((es₁.map Entry.mz).map (fun mz => (⟨mz, 0⟩ : Entry)) ++ E₁) (freePages hostshmemMaxPages) =
        firstPass (es₁ ++ E₁) (freePages hostshmemMaxPages) :=
      firstPass_congr (by rw [List.map_append, List.map_append, hmap]) _
    have hthird := thirdPass_congr hmap.symm hused pages E₁
    unfold Hostshmem.placeZones
    simp only [hfirst, h1, h2]
    rw [← hthird, h3, hnew]
  · -- the order of `entry_compare` on used entries
    have hpair := hq.sorted (config.insert A.length a.mz).entry
    rw [hsort, List.pairwise_append] at hpair
    rw [List.pairwise_map]
    refine (List.Pairwise.and_mem.1 hpair.1).imp ?_
    rintro x y ⟨-, hy, hle⟩
    rcases entryCompare_le_zero.1 hle with h0 | ⟨-, hphys⟩
    · exact absurd h0 (hused y hy)
    · exact hphys
  · rw [List.length_map, hperm.length_eq, hpermE.length_eq, ← List.length_append, ← hins.entry,
      Config.insert_entry hentry, hentry]
    simp

/-! ### Two orders of adding the same zones -/

/-- What successful calls lead to. -/
private structure Registered (name : CStr) (as : List Add) (es E : List Entry) : Prop where
  splits : (as.foldl Config.add (Config.create name)).Splits es E
  zones : (as.foldl Config.add (Config.create name)).zones.Perm (as.map Add.mz)
  length : (as.foldl Config.add (Config.create name)).entry.length = hostshmemMaxEntries

private theorem length_entry_placeZones {Z : List Memzone} {E entry : List Entry} (h : placeZones Z E = .ok entry) :
    entry.length = Z.length + E.length := by
  unfold placeZones at h
  split at h
  · cases h
  split at h
  · cases h
  · have := congrArg List.length (thirdPass_mz h)
    simpa using this

private theorem registered_of_succeeds (name : CStr) {as : List Add} (hq : ∀ a ∈ as, SortsEntries a.env.qsort)
    (haddr : ∀ a ∈ as, a.mz.addr64 ≠ 0) (hok : Along Config.add Config.Succeeds (Config.create name) as) :
    ∃ es E, Registered name as es E := by
  induction as using List.reverseRecOn with
  | nil =>
    refine ⟨_, _, Config.create_splits name, ?_, by simp [Config.create]⟩
    rw [List.foldl_nil, (Config.create_splits name).zones_eq]
    exact List.Perm.refl _
  | append_singleton as a ih =>
    rw [along_append] at hok
    have ha : a ∈ as ++ [a] := by simp
    obtain ⟨es, E, hr⟩ := ih (fun x hx => hq x (by simp [hx])) (fun x hx => haddr x (by simp [hx])) hok.1
    obtain ⟨Z, E', hplace, hZ, -, -, hlen⟩ := hr.splits.placeZones (hq a ha) (haddr a ha) hok.2.1
    obtain ⟨es', E'', hsplits⟩ := hr.splits.add (hq a ha).movesEmptyLast (haddr a ha)
    have hfold : (as ++ [a]).foldl Config.add (Config.create name) =
        (as.foldl Config.add (Config.create name)).add a := List.foldl_append ..
    refine ⟨es', E'', by rw [hfold]; exact hsplits, ?_, ?_⟩
    · rw [hfold, List.map_append]
      exact (Config.zones_of_succeeds (hq a ha).perm (haddr a ha) hok.2.1).trans
        ((hr.zones.cons a.mz).trans (List.perm_append_singleton _ _).symm)
    · rw [hfold, length_entry_placeZones hplace, hlen, hr.length]

private theorem entry_of_last (name : CStr) {as : List Add} {a : Add}
    (hq : ∀ x ∈ as ++ [a], SortsEntries x.env.qsort) (haddr : ∀ x ∈ as ++ [a], x.mz.addr64 ≠ 0)
    (hok : Along Config.add Config.Succeeds (Config.create name) (as ++ [a])) :
    ∃ Z E, placeZones Z E = .ok ((as ++ [a]).foldl Config.add (Config.create name)).entry ∧
      Z.Perm ((as ++ [a]).map Add.mz) ∧ Z.Pairwise (fun x y => x.physAddr.toNat ≤ y.physAddr.toNat) ∧
      (∀ e ∈ E, e = {}) ∧ Z.length + E.length = hostshmemMaxEntries := by
  rw [along_append] at hok
  have ha : a ∈ as ++ [a] := by simp
  obtain ⟨es, E, hr⟩ := registered_of_succeeds name (fun x hx => hq x (by simp [hx]))
    (fun x hx => haddr x (by simp [hx])) hok.1
  obtain ⟨Z, E', hplace, hZ, hsorted, hfree, hlen⟩ := hr.splits.placeZones (hq a ha) (haddr a ha) hok.2.1
  refine ⟨Z, E', ?_, ?_, hsorted, hfree, by rw [hlen, hr.length]⟩
  · rw [List.foldl_append]
    exact hplace
  · rw [List.map_append]
    exact hZ.trans ((hr.zones.cons a.mz).trans (List.perm_append_singleton _ _).symm)

/-- When all zones of a set can be added in one order and in another, the entries are the same in the end, the zones
and their offsets. -/
theorem entry_eq_of_perm (name name' : CStr) {as bs : List Add} (hqa : ∀ a ∈ as, SortsEntries a.env.qsort)
    (hqb : ∀ b ∈ bs, SortsEntries b.env.qsort) (hperm : (as.map Add.mz).Perm (bs.map Add.mz))
    (haddr : ∀ a ∈ as, a.mz.addr64 ≠ 0) (hphys : (as.map (fun a => a.mz.physAddr)).Nodup)
    (hoka : Along Config.add Config.Succeeds (Config.create name) as)
    (hokb : Along Config.add Config.Succeeds (Config.create name') bs) :
    (as.foldl Config.add (Config.create name)).entry = (bs.foldl Config.add (Config.create name')).entry := by
  have haddrb : ∀ b ∈ bs, b.mz.addr64 ≠ 0 := by
    intro b hb
    obtain ⟨a, ha, heq⟩ := List.mem_map.1 (hperm.symm.subset (List.mem_map_of_mem hb))
    rw [← heq]
    exact haddr a ha
  rcases List.eq_nil_or_concat' as with rfl | ⟨as, a, rfl⟩
  · obtain rfl : bs = [] := List.map_eq_nil_iff.1 hperm.symm.eq_nil
    rfl
  rcases List.eq_nil_or_concat' bs with rfl | ⟨bs, b, rfl⟩
  · simpa using hperm.length_eq
  obtain ⟨Z, E, hplace, hZ, hsorted, hfree, hlen⟩ := entry_of_last name hqa haddr hoka
  obtain ⟨Z', E', hplace', hZ', hsorted', hfree', hlen'⟩ := entry_of_last name' hqb haddrb hokb
  -- distinct physical addresses leave one sorted order
  have hZZ : Z = Z' := by
    refine List.Perm.eq_of_pairwise (fun x y hx hy hxy hyx => ?_) hsorted hsorted'
      (hZ.trans (hperm.trans hZ'.symm))
    have hphys' : ((as ++ [a]).map Add.mz).Pairwise (fun x y => x.physAddr ≠ y.physAddr) := by
      rw [List.Nodup, List.pairwise_map] at hphys
      rw [List.pairwise_map]
      exact hphys
    have : Std.Symm (fun x y : Memzone => x.physAddr ≠ y.physAddr) := ⟨fun _ _ h => h.symm⟩
    by_contra hne
    exact hphys'.forall (hZ.subset hx) (hperm.symm.subset (hZ'.subset hy)) hne
      (UInt64.toNat_inj.1 (Nat.le_antisymm hxy hyx))
  have hEE : E = E' := by
    rw [List.eq_replicate_of_mem hfree, List.eq_replicate_of_mem hfree',
      show E.length = E'.length by rw [← hZZ] at hlen'; omega]
  rw [hZZ, hEE, hplace'] at hplace
  exact (Except.ok.inj hplace).symm

/-- A zone on a hugepage of 2 MB. -/
def smallPageZone : Memzone :=
  { addr64 := 0x7f0000000000, physAddr := 0x100000000, len := 0x1000, hugepageSz := 0x200000 }

/-- A zone on a hugepage of 1 GB, behind the other one in physical memory and before it on the device. -/
def bigPageZone : Memzone :=
  { addr64 := 0x7f8000000000, physAddr := 0x200000000, len := 0x1000, hugepageSz := 0x40000000 }

theorem entry_eq_swapped :
    (([⟨plainEnv, smallPageZone⟩, ⟨plainEnv, bigPageZone⟩] : List Add).foldl Config.add (Config.create [])).entry =
      (([⟨plainEnv, bigPageZone⟩, ⟨plainEnv, smallPageZone⟩] : List Add).foldl Config.add (Config.create [])).entry := by
  refine entry_eq_of_perm [] [] ?_ ?_ (List.Perm.swap _ _ _) (by decide) (by decide) (by decide +kernel)
    (by decide +kernel)
  · simp only [List.forall_mem_cons]
    exact ⟨sortEntries_sorts, sortEntries_sorts, by simp⟩
  · simp only [List.forall_mem_cons]
    exact ⟨sortEntries_sorts, sortEntries_sorts, by simp⟩

end SoftPatchPanel.Hostshmem

import SoftPatchPanel.Hostshmem.Entries
import SoftPatchPanel.Lib.Runs

/-!
# The shape of the shared metadata

`add_memzone_to_metadata` looks for an overlap only up to the first free entry, so it relies on the used entries being
a prefix of the array.  They are, whatever mix of successful and failed calls there has been, and no zone is ever lost
or doubled (`Config.zones_add`, `Config.Splits.add`).  The ranges of the zones are disjoint as long as none of them
ends at the top of the address space, where the sum in `overlap` wraps to 0 (`shape_of_calls`).
-/

namespace SoftPatchPanel.Hostshmem

open Lib

/-- A call of `add_memzone_to_metadata` with its surroundings. -/
structure Add where
  env : Env
  mz : Memzone

/-- The config that a call leaves behind. -/
def Config.add (config : Config) (a : Add) : Config := (addMemzoneToMetadata a.env a.mz config).1

/-- The call returns 0. -/
def Config.Succeeds (config : Config) (a : Add) : Prop := (addMemzoneToMetadata a.env a.mz config).2 = none

instance (config : Config) (a : Add) : Decidable (config.Succeeds a) :=
  inferInstanceAs (Decidable ((addMemzoneToMetadata a.env a.mz config).2 = none))

/-- The non-empty zones of a config. -/
def Config.zones (config : Config) : List Memzone := (config.entry.map Entry.mz).filter (fun mz => mz.addr64 ≠ 0)

/-- Everything that a call can do: nothing, or put the zone into the first free entry and then fail or rebuild. -/
theorem Config.add_cases (config : Config) (a : Add) :
    (config.add a = config ∧ ¬config.Succeeds a ∧ ∀ i, findFreeSlot a.mz config.entry 0 ≠ .ok i) ∨
      ∃ A e B, config.entry = A ++ e :: B ∧ findFreeSlot a.mz config.entry 0 = .ok A.length ∧ e.mz.addr64 = 0 ∧
        (∀ x ∈ A, x.mz.addr64 ≠ 0 ∧ overlap a.mz x.mz = false) ∧
        ((config.add a = config.insert A.length a.mz ∧ ¬config.Succeeds a) ∨
          (buildConfig a.env (config.insert A.length a.mz) = .ok (config.add a) ∧ config.Succeeds a)) := by
  unfold Config.add Config.Succeeds addMemzoneToMetadata
  cases hslot : findFreeSlot a.mz config.entry 0 with
  | error f => exact Or.inl ⟨rfl, by simp, by simp⟩
  | ok i =>
    right
    obtain ⟨A, e, B, hentry, rfl, he, -, hA⟩ := findFreeSlot_eq_ok hslot
    rw [Nat.zero_add] at hslot ⊢
    refine ⟨A, e, B, hentry, rfl, he, hA, ?_⟩
    cases hbuild : buildConfig a.env (config.insert A.length a.mz) with
    | error f => exact Or.inl (by simp [hbuild])
    | ok config' => exact Or.inr (by simp [hbuild])

/-! ### No zone is lost or doubled -/

theorem Config.zones_insert {config : Config} {A B : List Entry} {e : Entry} {mz : Memzone}
    (h : config.entry = A ++ e :: B) (he : e.mz.addr64 = 0) (hmz : mz.addr64 ≠ 0) :
    (config.insert A.length mz).zones.Perm (mz :: config.zones) := by
  unfold Config.zones
  rw [Config.insert_entry h mz, h]
  simp only [List.map_append, List.map_cons, List.filter_append]
  rw [List.filter_cons_of_pos (by simpa using hmz), List.filter_cons_of_neg (by simpa using he)]
  exact List.perm_middle

theorem zones_of_buildConfig {env : Env} {config config' : Config} (hq : ∀ l, (env.qsort l).Perm l)
    (h : buildConfig env config = .ok config') : config'.zones.Perm config.zones := by
  obtain ⟨collected, pages, entry, ms, -, -, h3, -, rfl⟩ := buildConfig_ok h
  unfold Config.zones
  rw [thirdPass_mz h3]
  exact ((hq config.entry).map Entry.mz).filter _

theorem Config.zones_add (config : Config) {a : Add} (hq : ∀ l, (a.env.qsort l).Perm l) (hmz : a.mz.addr64 ≠ 0) :
    (config.add a).zones.Perm config.zones ∨ (config.add a).zones.Perm (a.mz :: config.zones) := by
  rcases config.add_cases a with ⟨hadd, -⟩ | ⟨A, e, B, hentry, -, he, -, ⟨hadd, -⟩ | ⟨hbuild, -⟩⟩
  · exact Or.inl (by rw [hadd])
  · exact Or.inr (by rw [hadd]; exact Config.zones_insert hentry he hmz)
  · exact Or.inr ((zones_of_buildConfig hq hbuild).trans (Config.zones_insert hentry he hmz))

theorem Config.zones_of_succeeds {config : Config} {a : Add} (hq : ∀ l, (a.env.qsort l).Perm l)
    (hmz : a.mz.addr64 ≠ 0) (hok : config.Succeeds a) : (config.add a).zones.Perm (a.mz :: config.zones) := by
  rcases config.add_cases a with ⟨-, hfail, -⟩ | ⟨A, e, B, hentry, -, he, -, ⟨-, hfail⟩ | ⟨hbuild, -⟩⟩
  · exact absurd hok hfail
  · exact absurd hok hfail
  · exact (zones_of_buildConfig hq hbuild).trans (Config.zones_insert hentry he hmz)

/-! ### The used entries are a prefix -/

/-- What is assumed of `qsort` here. -/
structure MovesEmptyLast (qsort : List Entry → List Entry) : Prop where
  perm : ∀ l, (qsort l).Perm l
  last : ∀ l, (qsort l).Pairwise (fun a b => a.mz.addr64 = 0 → b.mz.addr64 = 0)

theorem SortsEntries.movesEmptyLast {qsort : List Entry → List Entry} (h : SortsEntries qsort) :
    MovesEmptyLast qsort :=
  ⟨h.perm, fun l => (h.sorted l).imp freeLast_of_le⟩

/-- The entries of a config: used ones, then ones that were never written. -/
structure Config.Splits (config : Config) (es E : List Entry) : Prop where
  entry : config.entry = es ++ E
  used : ∀ e ∈ es, e.mz.addr64 ≠ 0
  free : ∀ e ∈ E, e = {}

theorem Config.Splits.free_addr {config : Config} {es E : List Entry} (h : config.Splits es E) :
    ∀ e ∈ E, e.mz.addr64 = 0 := by
  intro e he
  rw [h.free e he]

theorem Config.create_splits (name : CStr) :
    (Config.create name).Splits [] (List.replicate hostshmemMaxEntries {}) :=
  ⟨rfl, by simp, fun _ he => List.eq_of_mem_replicate he⟩

theorem Config.Splits.zones_eq {config : Config} {es E : List Entry} (h : config.Splits es E) :
    config.zones = es.map Entry.mz := by
  unfold Config.zones
  rw [h.entry, List.map_append, List.filter_append, List.filter_eq_self.2, List.filter_eq_nil_iff.2,
    List.append_nil]
  · intro mz hmz
    obtain ⟨e, he, rfl⟩ := List.mem_map.1 hmz
    simpa using h.free_addr e he
  · intro mz hmz
    obtain ⟨e, he, rfl⟩ := List.mem_map.1 hmz
    simpa using h.used e he

theorem Config.Splits.insert {config : Config} {es E A B : List Entry} {e : Entry} {mz : Memzone}
    (h : config.Splits es E) (hentry : config.entry = A ++ e :: B) (he : e.mz.addr64 = 0)
    (hA : ∀ x ∈ A, x.mz.addr64 ≠ 0) (hmz : mz.addr64 ≠ 0) :
    (config.insert A.length mz).Splits (A ++ [⟨mz, 0⟩]) B := by
  obtain ⟨rfl, rfl⟩ := append_eq_append_of_used h.used h.free_addr hA he (h.entry.symm.trans hentry)
  obtain rfl := h.free e (by simp)
  refine ⟨?_, ?_, fun x hx => h.free x (by simp [hx])⟩
  · rw [Config.insert_entry hentry, List.append_assoc]
    rfl
  · intro x hx
    rcases List.mem_append.1 hx with hx | hx
    · exact hA x hx
    · rw [List.mem_singleton.1 hx]
      exact hmz

/-- The entries that `build_config` sorts are again used ones in front of ones that were never written. -/
theorem Config.Splits.qsort {config : Config} {es E : List Entry} (h : config.Splits es E)
    {qsort : List Entry → List Entry} (hq : MovesEmptyLast qsort) :
    ∃ es' E', qsort config.entry = es' ++ E' ∧ es'.Perm es ∧ E'.Perm E := by
  have hperm := hq.perm config.entry
  have hused : config.entry.filter (fun e => e.mz.addr64 ≠ 0) = es := by
    rw [h.entry, List.filter_append, List.filter_eq_self.2, List.filter_eq_nil_iff.2, List.append_nil]
    · exact fun e he => by simpa using h.free_addr e he
    · exact fun e he => by simpa using h.used e he
  have hfree : config.entry.filter (fun e => e.mz.addr64 = 0) = E := by
    rw [h.entry, List.filter_append, List.filter_eq_nil_iff.2, List.filter_eq_self.2, List.nil_append]
    · exact fun e he => by simpa using h.free_addr e he
    · exact fun e he => by simpa using h.used e he
  refine ⟨_, _, eq_used_append_free (hq.last config.entry), ?_, ?_⟩
  · have := hperm.filter (fun e => decide (e.mz.addr64 ≠ 0))
    rwa [hused] at this
  · have := hperm.filter (fun e => decide (e.mz.addr64 = 0))
    rwa [hfree] at this

private theorem Config.Splits.build {config config' : Config} {es E : List Entry} (h : config.Splits es E) {env : Env}
    (hq : MovesEmptyLast env.qsort) (hbuild : buildConfig env config = .ok config') :
    ∃ es' E', config'.Splits es' E' := by
  obtain ⟨collected, pages, entry, ms, -, -, h3, -, rfl⟩ := buildConfig_ok hbuild
  obtain ⟨es₁, E₁, hsort, hperm, hpermE⟩ := h.qsort hq
  have hused : ∀ e ∈ es₁, e.mz.addr64 ≠ 0 := fun e he => h.used e (hperm.subset he)
  have hfree : ∀ e ∈ E₁, e = {} := fun e he => h.free e (hpermE.subset he)
  rw [hsort] at h3
  obtain ⟨es₂, rfl, hmz, -⟩ := thirdPass_ok hused (fun e he => by rw [hfree e he]) h3
  refine ⟨es₂, E₁, rfl, fun e he => ?_, hfree⟩
  have : e.mz ∈ es₁.map Entry.mz := by rw [← hmz]; exact List.mem_map_of_mem he
  obtain ⟨e₁, he₁, heq⟩ := List.mem_map.1 this
  rw [← heq]
  exact hused e₁ he₁

theorem Config.Splits.add {config : Config} {es E : List Entry} (h : config.Splits es E) {a : Add}
    (hq : MovesEmptyLast a.env.qsort) (hmz : a.mz.addr64 ≠ 0) : ∃ es' E', (config.add a).Splits es' E' := by
  rcases config.add_cases a with ⟨hadd, -⟩ | ⟨A, e, B, hentry, -, he, hA, hadd⟩
  · exact ⟨es, E, by rw [hadd]; exact h⟩
  · have hins := h.insert hentry he (fun x hx => (hA x hx).1) hmz
    rcases hadd with ⟨hadd, -⟩ | ⟨hbuild, -⟩
    · exact ⟨_, _, by rw [hadd]; exact hins⟩
    · exact hins.build hq hbuild

/-! ### The ranges of the zones -/

/-- The address belongs to the zone. -/
def Memzone.Covers (mz : Memzone) (x : Nat) : Prop :=
  mz.addr64.toNat ≤ x ∧ x < mz.addr64.toNat + mz.len.toNat

/-- No address belongs to both zones. -/
def Memzone.Disjoint (a b : Memzone) : Prop := ∀ x, ¬(a.Covers x ∧ b.Covers x)

private theorem Memzone.Disjoint.symm {a b : Memzone} (h : a.Disjoint b) : b.Disjoint a := fun x hx => h x hx.symm

/-- `a` reaches the top of the address space from `b` or from below, and `b` is not empty. -/
def Memzone.OverTop (a b : Memzone) : Prop :=
  a.addr64.toNat ≤ b.addr64.toNat ∧ a.addr64.toNat + a.len.toNat = 2 ^ 64 ∧ 0 < b.len.toNat

instance (mz : Memzone) (x : Nat) : Decidable (mz.Covers x) := inferInstanceAs (Decidable (_ ∧ _))

instance (a b : Memzone) : Decidable (a.OverTop b) := inferInstanceAs (Decidable (_ ∧ _ ∧ _))

/-- The zone does not go beyond the address space. -/
def Memzone.InRange (mz : Memzone) : Prop := mz.addr64.toNat + mz.len.toNat ≤ 2 ^ 64

instance (mz : Memzone) : Decidable mz.InRange := inferInstanceAs (Decidable (_ ≤ _))

/-- Zones that pass the overlap test have an address in common only at the top of the address space. -/
private theorem disjoint_iff_of_not_overlap {a b : Memzone} (ha : a.InRange) (hb : b.InRange)
    (h : overlap a b = false) :
    a.Disjoint b ↔ ¬a.OverTop b ∧ ¬b.OverTop a := by
  simp only [overlap, decide_eq_false_iff_not, not_or, UInt64.le_iff_toNat_le, UInt64.lt_iff_toNat_lt,
    UInt64.toNat_add] at h
  unfold Memzone.InRange at ha hb
  unfold Memzone.Disjoint Memzone.OverTop Memzone.Covers
  have hlt := a.addr64.toNat_lt
  have hlt' := b.addr64.toNat_lt
  constructor
  · intro hd
    have h1 := hd a.addr64.toNat
    have h2 := hd b.addr64.toNat
    constructor <;> rintro ⟨h3, h4, h5⟩ <;> omega
  · rintro ⟨h1, h2⟩ x ⟨⟨h3, h4⟩, h5, h6⟩
    rcases Nat.le_total a.addr64.toNat b.addr64.toNat with hle | hle
    · have : a.addr64.toNat + a.len.toNat ≠ 2 ^ 64 := fun htop => h1 ⟨hle, htop, by omega⟩
      rw [Nat.mod_eq_of_lt (b := 2 ^ 64) (a := a.addr64.toNat + a.len.toNat) (by omega)] at h
      omega
    · have : b.addr64.toNat + b.len.toNat ≠ 2 ^ 64 := fun htop => h2 ⟨hle, htop, by omega⟩
      rw [Nat.mod_eq_of_lt (b := 2 ^ 64) (a := b.addr64.toNat + b.len.toNat) (by omega)] at h
      omega

/-- The ranges of the zones of a config are pairwise disjoint. -/
def Config.Disjoint (config : Config) : Prop := config.zones.Pairwise Memzone.Disjoint

/-- The used entries of a config are a prefix of the array. -/
def Config.Prefixed (config : Config) : Prop :=
  config.entry.filter (fun e => e.mz.addr64 ≠ 0) <+: config.entry

/-- When the zone of a call gets an entry, neither this zone nor another one reaches over the other to the top of the
address space. -/
def Config.BelowTop (config : Config) (a : Add) : Prop :=
  (∃ i, findFreeSlot a.mz config.entry 0 = .ok i) →
    ∀ mz ∈ config.zones, ¬a.mz.OverTop mz ∧ ¬mz.OverTop a.mz

/-! ### Any sequence of calls -/

/-- What the calls keep up, with or without success. -/
private def Sane (config : Config) : Prop :=
  (∃ es E, config.Splits es E) ∧ ∀ mz ∈ config.zones, mz.InRange

/-- What is assumed of a call. -/
private def Add.Ok (_ : Config) (a : Add) : Prop :=
  MovesEmptyLast a.env.qsort ∧ a.mz.addr64 ≠ 0 ∧ a.mz.InRange

private theorem Sane.add {config : Config} {a : Add} (h : Sane config) (ha : a.Ok config) : Sane (config.add a) := by
  obtain ⟨⟨es, E, hsplit⟩, hrange⟩ := h
  refine ⟨hsplit.add ha.1 ha.2.1, fun mz hmz => ?_⟩
  rcases config.zones_add ha.1.perm ha.2.1 with hperm | hperm
  · exact hrange mz (hperm.subset hmz)
  · rcases List.mem_cons.1 (hperm.subset hmz) with rfl | hmz
    · exact ha.2.2
    · exact hrange mz hmz

private theorem disjoint_add_iff {config : Config} {a : Add} (h : Sane config) (ha : a.Ok config)
    (hd : config.Disjoint) : (config.add a).Disjoint ↔ config.BelowTop a := by
  obtain ⟨⟨es, E, hsplit⟩, hrange⟩ := h
  rcases config.add_cases a with ⟨hadd, -, hslot⟩ | ⟨A, e, B, hentry, hslot, he, hA, hadd⟩
  · rw [hadd]
    exact ⟨fun _ ⟨i, hi⟩ => absurd hi (hslot i), fun _ => hd⟩
  · have hzones : (config.add a).zones.Perm (a.mz :: config.zones) := by
      rcases hadd with ⟨hadd, -⟩ | ⟨hbuild, -⟩
      · rw [hadd]; exact Config.zones_insert hentry he ha.2.1
      · exact (zones_of_buildConfig ha.1.perm hbuild).trans (Config.zones_insert hentry he ha.2.1)
    obtain ⟨rfl, -⟩ := append_eq_append_of_used hsplit.used hsplit.free_addr (fun x hx => (hA x hx).1) he
      (hsplit.entry.symm.trans hentry)
    -- the new zone passed the test against every zone that is there
    have htest : ∀ mz ∈ config.zones, (a.mz.Disjoint mz ↔ ¬a.mz.OverTop mz ∧ ¬mz.OverTop a.mz) := by
      intro mz hmz
      have hov : overlap a.mz mz = false := by
        rw [hsplit.zones_eq] at hmz
        obtain ⟨x, hx, rfl⟩ := List.mem_map.1 hmz
        exact (hA x hx).2
      exact disjoint_iff_of_not_overlap ha.2.2 (hrange mz hmz) hov
    unfold Config.Disjoint Config.BelowTop
    rw [hzones.pairwise_iff Memzone.Disjoint.symm, List.pairwise_cons]
    constructor
    · intro hall _ mz hmz
      exact (htest mz hmz).1 (hall.1 mz hmz)
    · intro hall
      exact ⟨fun mz hmz => (htest mz hmz).2 (hall ⟨_, hslot⟩ mz hmz), hd⟩

private theorem Sane.prefixed {config : Config} (h : Sane config) : config.Prefixed := by
  obtain ⟨⟨es, E, hsplit⟩, -⟩ := h
  unfold Config.Prefixed
  rw [hsplit.entry, List.filter_append, List.filter_eq_self.2 (fun e he => by simpa using hsplit.used e he),
    List.filter_eq_nil_iff.2 (fun e he => by simpa using hsplit.free_addr e he), List.append_nil]
  exact List.prefix_append es E

/-- Whatever calls of `add_memzone_to_metadata` succeed or fail on a new config, the used entries are a prefix of the
array, and a call leaves the zones alone or adds its own zone once.  The zones are disjoint after every call exactly when
no zone gets an entry that another one reaches over to the top of the address space, or that does so itself. -/
theorem shape_of_calls (name : CStr) (as : List Add) (hq : ∀ a ∈ as, MovesEmptyLast a.env.qsort)
    (haddr : ∀ a ∈ as, a.mz.addr64 ≠ 0) (hrange : ∀ a ∈ as, a.mz.InRange) :
    (∀ k, ((as.take k).foldl Config.add (Config.create name)).Prefixed) ∧
      (∀ k a, as[k]? = some a →
        ((as.take (k + 1)).foldl Config.add (Config.create name)).zones.Perm
            ((as.take k).foldl Config.add (Config.create name)).zones ∨
          ((as.take (k + 1)).foldl Config.add (Config.create name)).zones.Perm
            (a.mz :: ((as.take k).foldl Config.add (Config.create name)).zones)) ∧
      ((∀ k, ((as.take k).foldl Config.add (Config.create name)).Disjoint) ↔
        Along Config.add Config.BelowTop (Config.create name) as) := by
  have hstart : (Config.create name).zones = [] := (Config.create_splits name).zones_eq
  have hsane : Sane (Config.create name) := ⟨⟨_, _, Config.create_splits name⟩, by simp [hstart]⟩
  have hok : Along Config.add (fun config a => a.Ok config) (Config.create name) as :=
    Along.of_forall (fun a ha _ => ⟨hq a ha, haddr a ha, hrange a ha⟩) _
  refine ⟨fun k => (Along.invariant (I := Sane) Sane.add hsane hok k).prefixed, fun k a ha => ?_, ?_⟩
  · have hmem := List.mem_of_getElem? ha
    rw [List.take_add_one, ha, Option.toList_some, List.foldl_append]
    exact Config.zones_add _ (hq a hmem).perm (haddr a hmem)
  · refine forall_take_iff_along (I := Sane) (P := Config.Disjoint) Sane.add disjoint_add_iff hsane hok ?_
    unfold Config.Disjoint
    rw [hstart]
    exact List.Pairwise.nil

/-! ### Zones at the top of the address space -/

def plainEnv : Env := { qsort := sortEntries, hugefile := fun _ => some ("/mnt/huge/rtemap_0".toList, 0), malloc := true }

theorem plainEnv_sorts : MovesEmptyLast plainEnv.qsort := sortEntries_sorts.movesEmptyLast

/-- The last 8 kB of the address space. -/
def topZone : Memzone :=
  { addr64 := 0xffffffffffffe000, physAddr := 0x100000000, len := 0x2000, hugepageSz := 0x1000 }

/-- The second half of them. -/
def insideTopZone : Memzone :=
  { addr64 := 0xfffffffffffff000, physAddr := 0x100001000, len := 0x1000, hugepageSz := 0x1000 }

/-- The 4 kB before them. -/
def belowTopZone : Memzone :=
  { addr64 := 0xffffffffffffd000, physAddr := 0xfffff000, len := 0x1000, hugepageSz := 0x1000 }

theorem shape_of_belowTop :
    (([⟨plainEnv, topZone⟩, ⟨plainEnv, belowTopZone⟩] : List Add).foldl Config.add (Config.create [])).Disjoint := by
  have h := shape_of_calls [] [⟨plainEnv, topZone⟩, ⟨plainEnv, belowTopZone⟩]
    (by simp only [List.forall_mem_cons]; exact ⟨plainEnv_sorts, plainEnv_sorts, by simp⟩) (by decide) (by decide)
  refine (h.2.2.2 ?_) 2
  have hempty : (Config.create []).zones = [] := (Config.create_splits []).zones_eq
  have hone : ((Config.create []).add ⟨plainEnv, topZone⟩).zones = [topZone] := by decide +kernel
  refine ⟨fun _ mz hmz => ?_, fun _ mz hmz => ?_, trivial⟩
  · rw [hempty] at hmz
    simp at hmz
  · rw [hone, List.mem_singleton] at hmz
    rw [hmz]
    decide

/-- The overlap test does not see that a zone lies inside one that ends at the top of the address space. -/
theorem topZones_not_disjoint :
    (MovesEmptyLast plainEnv.qsort ∧ topZone.addr64 ≠ 0 ∧ topZone.InRange ∧ insideTopZone.addr64 ≠ 0 ∧
        insideTopZone.InRange) ∧
      (([⟨plainEnv, topZone⟩, ⟨plainEnv, insideTopZone⟩] : List Add).foldl Config.add (Config.create [])).zones =
        [topZone, insideTopZone] ∧
      ¬(([⟨plainEnv, topZone⟩, ⟨plainEnv, insideTopZone⟩] : List Add).foldl Config.add (Config.create [])).Disjoint := by
  have hzones : (([⟨plainEnv, topZone⟩, ⟨plainEnv, insideTopZone⟩] : List Add).foldl Config.add
      (Config.create [])).zones = [topZone, insideTopZone] := by decide +kernel
  refine ⟨⟨plainEnv_sorts, by decide⟩, hzones, fun hd => ?_⟩
  unfold Config.Disjoint at hd
  rw [hzones, List.pairwise_cons] at hd
  exact hd.1 insideTopZone (by simp) 0xfffffffffffff000 (by decide)

end SoftPatchPanel.Hostshmem

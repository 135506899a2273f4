import SoftPatchPanel.Hostshmem.Offsets
import SoftPatchPanel.Lib.Pieces

/-!
# The fourth pass: the memseg cache

The cache lists the files behind the pages, with neighbouring pages of one file stored as one run.  Read as one
device it has the same bytes as the pages one after another (`fourthPass_sameBytes`).  Entries of an earlier call
behind the last run stay in the cache and do no harm.  When every page has a file of its own from offset 0 there is
nothing to merge, and the cache lists the pages themselves (`fourthPass_unmerged`).
-/

namespace SoftPatchPanel.Hostshmem

open Lib

def CacheEntry.piece (c : CacheEntry) : Piece CStr := ⟨c.filepath, c.offset, c.len.toNat⟩

/-- The memseg cache as a device. -/
def deviceByte (cache : List CacheEntry) (o : Nat) : Option (CStr × UInt64) := locate (cache.map CacheEntry.piece) o

/-- The cache entry the fourth pass makes for a page. -/
def Memseg.cacheEntry (hugefile : UInt64 → Option (CStr × UInt64)) (p : Memseg) : CacheEntry :=
  match hugefile p.addr64 with
  | none => {}
  | some (filepath, offset) => ⟨filepath, offset, p.len⟩

theorem cacheEntry_of_some {hugefile : UInt64 → Option (CStr × UInt64)} {p : Memseg} {r : CStr × UInt64}
    (h : hugefile p.addr64 = some r) : p.cacheEntry hugefile = ⟨r.1, r.2, p.len⟩ := by
  rw [Memseg.cacheEntry, h]

/-- The pages as pieces of their files. -/
def pagePieces (hugefile : UInt64 → Option (CStr × UInt64)) (P : List Memseg) : List (Piece CStr) :=
  P.map (fun p => (p.cacheEntry hugefile).piece)

section

variable {hugefile : UInt64 → Option (CStr × UInt64)}

private theorem fourthPass_free (m : Nat) (ms : List CacheEntry) (k : Nat) :
    fourthPass hugefile (freePages m) ms k = .ok ms := by
  cases m with
  | zero => rfl
  | succ m => rw [freePages_succ, fourthPass, ite_cond_eq_true _ _ (eq_true (Or.inr rfl))]

private theorem fourthPass_round {p : Memseg} {ps : List Memseg} {ms ms' : List CacheEntry} {k : Nat}
    (hp : p.addr64 ≠ 0) (hk : k ≤ hostshmemMaxPages) (hok : fourthPass hugefile (p :: ps) ms k = .ok ms') :
    k < hostshmemMaxPages ∧ (hugefile p.addr64).isSome ∧
      ((∃ prev, k ≠ 0 ∧ ms[k - 1]? = some prev ∧ prev.filepath = (p.cacheEntry hugefile).filepath ∧
          prev.offset + prev.len = (p.cacheEntry hugefile).offset ∧
          fourthPass hugefile ps ((ms.set (k - 1) { prev with len := prev.len + p.len }).set k {}) k = .ok ms') ∨
        ((∀ prev, k ≠ 0 → ms[k - 1]? = some prev →
            ¬(prev.filepath = (p.cacheEntry hugefile).filepath ∧
              prev.offset + prev.len = (p.cacheEntry hugefile).offset)) ∧
          fourthPass hugefile ps (ms.set k (p.cacheEntry hugefile)) (k + 1) = .ok ms')) := by
  rw [fourthPass, ite_cond_eq_false _ _ (by simp [hp, hk])] at hok
  by_cases hfull : k = hostshmemMaxPages
  · rw [ite_cond_eq_true _ _ (eq_true hfull)] at hok
    cases hok
  rw [ite_cond_eq_false _ _ (eq_false hfull)] at hok
  cases hfile : hugefile p.addr64 with
  | none => rw [hfile] at hok; cases hok
  | some r =>
    rw [hfile] at hok
    rw [cacheEntry_of_some hfile]
    refine ⟨by omega, rfl, ?_⟩
    by_cases hcont : continues (if k = 0 then none else ms[k - 1]?) ⟨r.1, r.2, p.len⟩
    · left
      simp only [hcont, ↓reduceIte] at hok
      rcases Nat.eq_zero_or_pos k with rfl | hpos
      · simp [continues] at hcont
      rw [ite_cond_eq_false _ _ (eq_false hpos.ne')] at hcont
      cases hprev : ms[k - 1]? with
      | none => simp [hprev, continues] at hcont
      | some prev =>
        simp only [hprev, continues, decide_eq_true_eq] at hcont
        rw [List.getD_eq_getElem?_getD, hprev] at hok
        exact ⟨prev, hpos.ne', rfl, hcont.1.symm, hcont.2, hok⟩
    · right
      simp only [hcont, Bool.false_eq_true, ↓reduceIte] at hok
      refine ⟨fun prev hne hprev hsame => hcont ?_, hok⟩
      rw [ite_cond_eq_false _ _ (eq_false hne), hprev]
      simp [continues, hsame.1, hsame.2]

private theorem take_set_last {α : Type} {l : List α} {k : Nat} {x y : α} (hx : l[k]? = some x) :
    l.take (k + 1) = l.take k ++ [x] ∧ (l.set k y).take (k + 1) = l.take k ++ [y] := by
  have hk := (List.getElem?_eq_some_iff.1 hx).1
  constructor
  · rw [List.take_add_one, hx]; rfl
  · rw [List.take_add_one, List.getElem?_set_self hk, List.take_set_of_le (Nat.le_refl k)]; rfl

/-- The runs in front of `ms_iter` and the pages still to come together are the device that the pass produces. -/
theorem fourthPass_sameBytes {P : List Memseg} (hP : Used P) (m : Nat) {ms ms' : List CacheEntry} {k : Nat}
    (hlen : ms.length = hostshmemMaxPages) (hk : k ≤ hostshmemMaxPages)
    (hsum : total ((ms.take k).map CacheEntry.piece) + sizeSum P < 2 ^ 64)
    (hok : fourthPass hugefile (P ++ freePages m) ms k = .ok ms') :
    ms'.length = hostshmemMaxPages ∧ (∀ p ∈ P, (hugefile p.addr64).isSome) ∧
      ∃ k', SameBytes ((ms'.take k').map CacheEntry.piece)
        ((ms.take k).map CacheEntry.piece ++ pagePieces hugefile P) := by
  induction P generalizing ms k with
  | nil =>
    rw [List.nil_append, fourthPass_free] at hok
    cases hok
    exact ⟨hlen, by simp, k, by simpa [pagePieces] using SameBytes.refl _⟩
  | cons p P ih =>
    rw [sizeSum_cons] at hsum
    unfold Memseg.size at hsum
    have hP' : Used P := fun q hq => hP q (by simp [hq])
    obtain ⟨hlt, hfile, hround⟩ := fourthPass_round (hP p (by simp)).1 hk hok
    have hclen : (p.cacheEntry hugefile).len = p.len := by
      obtain ⟨r, hr⟩ := Option.isSome_iff_exists.1 hfile
      rw [cacheEntry_of_some hr]
    rcases hround with ⟨prev, hne, hprev, hpath, hoff, hrest⟩ | ⟨-, hrest⟩
    · -- the page continues the run before it
      obtain ⟨j, rfl⟩ := Nat.exists_eq_succ_of_ne_zero hne
      rw [Nat.succ_eq_add_one, Nat.add_sub_cancel] at hprev hrest
      obtain ⟨htake, hset⟩ := take_set_last (y := { prev with len := prev.len + p.len }) hprev
      have htake' : (((ms.set j { prev with len := prev.len + p.len }).set (j + 1) {}).take (j + 1)) =
          ms.take j ++ [{ prev with len := prev.len + p.len }] := by
        rw [List.take_set_of_le (by omega), hset]
      rw [Nat.succ_eq_add_one, htake, List.map_append, total_append] at hsum
      have hnowrap : (prev.len + p.len).toNat = prev.len.toNat + p.len.toNat := by
        rw [UInt64.toNat_add, Nat.mod_eq_of_lt]
        simp only [List.map_cons, List.map_nil, total_cons, total_nil, CacheEntry.piece] at hsum
        omega
      obtain ⟨h1, h2, k', h3⟩ := ih hP' (by simpa using hlen) hk (by
        rw [htake', List.map_append, total_append]
        simp only [List.map_cons, List.map_nil, total_cons, total_nil, CacheEntry.piece] at hsum ⊢
        omega) hrest
      refine ⟨h1, List.forall_mem_cons.2 ⟨hfile, h2⟩, k', h3.trans ?_⟩
      rw [htake', Nat.succ_eq_add_one, htake]
      have hmerge := (sameBytes_merge ((ms.take j).map CacheEntry.piece) prev.filepath prev.offset prev.len.toNat
        p.len.toNat).append_right (pagePieces hugefile P)
      rw [UInt64.ofNat_toNat, hoff, hpath] at hmerge
      simp only [List.map_append, List.map_cons, List.map_nil, pagePieces, CacheEntry.piece, hnowrap, hclen,
        hpath, List.append_assoc, List.cons_append, List.nil_append] at hmerge ⊢
      exact hmerge
    · -- the page starts a run of its own
      have hget : ms[k]? = some (ms.get ⟨k, by omega⟩) := List.getElem?_eq_some_iff.2 ⟨by omega, rfl⟩
      obtain ⟨-, hset⟩ := take_set_last (y := p.cacheEntry hugefile) hget
      obtain ⟨h1, h2, k', h3⟩ := ih hP' (by simpa using hlen) (by omega) (by
        rw [hset, List.map_append, total_append]
        simp only [List.map_cons, List.map_nil, total_cons, total_nil, CacheEntry.piece, hclen]
        omega) hrest
      refine ⟨h1, List.forall_mem_cons.2 ⟨hfile, h2⟩, k', ?_⟩
      rw [hset] at h3
      simpa [pagePieces] using h3

/-- The cache after the pages with the pieces `Q`: their runs, then the entry behind the last run, which is cleared when
the last page was merged, then what was there before. -/
structure CacheOf (ms₀ ms : List CacheEntry) (Q : List (Piece CStr)) : Prop where
  length : ms.length = hostshmemMaxPages
  runs : (ms.take (coalesce Q).length).map CacheEntry.piece = coalesce Q
  next : (coalesce Q).length < hostshmemMaxPages →
    ms[(coalesce Q).length]? = if lastContinues Q then some {} else ms₀[(coalesce Q).length]?
  behind : ∀ j, (coalesce Q).length < j → ms[j]? = ms₀[j]?

theorem CacheOf.start {ms : List CacheEntry} (h : ms.length = hostshmemMaxPages) : CacheOf ms ms [] :=
  ⟨h, rfl, fun _ => by simp, fun _ _ => rfl⟩

private theorem CacheOf.last {ms₀ ms : List CacheEntry} {Q : List (Piece CStr)} (h : CacheOf ms₀ ms Q)
    {prev : CacheEntry} (hne : (coalesce Q).length ≠ 0) (hprev : ms[(coalesce Q).length - 1]? = some prev) :
    coalesce Q = (ms.take ((coalesce Q).length - 1)).map CacheEntry.piece ++ [prev.piece] := by
  have hk : (coalesce Q).length - 1 + 1 = (coalesce Q).length := by omega
  have hruns := h.runs
  rw [← hk, List.take_add_one, hprev] at hruns
  simpa using hruns.symm

private theorem CacheOf.length_le {ms₀ ms : List CacheEntry} {Q : List (Piece CStr)} (h : CacheOf ms₀ ms Q) :
    (coalesce Q).length ≤ hostshmemMaxPages := by
  have := congrArg List.length h.runs
  rw [List.length_map, List.length_take, h.length] at this
  omega

/-- A page is merged into the run before it, and the entry behind the runs is cleared. -/
private theorem CacheOf.merge {ms₀ ms : List CacheEntry} {Q : List (Piece CStr)} (h : CacheOf ms₀ ms Q)
    {prev c : CacheEntry} (hlt : (coalesce Q).length < hostshmemMaxPages) (hne : (coalesce Q).length ≠ 0)
    (hprev : ms[(coalesce Q).length - 1]? = some prev) (hcont : prev.piece.continues c.piece)
    (hsum : total Q + c.len.toNat < 2 ^ 64) :
    (coalesce (Q ++ [c.piece])).length = (coalesce Q).length ∧
    CacheOf ms₀ ((ms.set ((coalesce Q).length - 1) { prev with len := prev.len + c.len }).set (coalesce Q).length {})
      (Q ++ [c.piece]) := by
  have hlast := h.last hne hprev
  have hnew := coalesce_concat_of_continues hlast hcont
  have hlen : (coalesce (Q ++ [c.piece])).length = (coalesce Q).length := by
    rw [hnew, hlast]
    simp
  have hnowrap : (prev.len + c.len).toNat = prev.len.toNat + c.len.toNat := by
    have htot := total_coalesce Q
    rw [hlast, total_append, total_cons, total_nil] at htot
    rw [UInt64.toNat_add, Nat.mod_eq_of_lt]
    simp only [CacheEntry.piece] at htot
    omega
  obtain ⟨z, hz⟩ : ∃ z, z ∈ Q.getLast? := by
    cases hQ : Q.getLast? with
    | none =>
      rw [List.getLast?_eq_none_iff] at hQ
      simp [hQ] at hne
    | some z => exact ⟨z, rfl⟩
  have hlc : lastContinues (Q ++ [c.piece]) = true := by
    rw [lastContinues_concat, hz]
    exact (continues_last_iff hlast hz _).1 hcont
  refine ⟨hlen, ?_, ?_, fun hlt' => ?_, fun j hj => ?_⟩
  · simpa using h.length
  · rw [hlen, List.take_set_of_le (Nat.le_refl _), hnew]
    obtain ⟨-, hset⟩ := take_set_last (y := { prev with len := prev.len + c.len }) hprev
    rw [Nat.sub_add_cancel (by omega)] at hset
    rw [hset, List.map_append]
    simp [CacheEntry.piece, hnowrap]
  · rw [hlen, hlc, List.getElem?_set_self (by simpa [h.length] using hlt)]
    rfl
  · rw [hlen] at hj
    rw [List.getElem?_set_ne (by omega), List.getElem?_set_ne (by omega), h.behind j hj]

/-- A page that does not continue the run before it starts a run of its own. -/
private theorem CacheOf.push {ms₀ ms : List CacheEntry} {Q : List (Piece CStr)} (h : CacheOf ms₀ ms Q) {c : CacheEntry}
    (hlt : (coalesce Q).length < hostshmemMaxPages)
    (hnot : ∀ prev, (coalesce Q).length ≠ 0 → ms[(coalesce Q).length - 1]? = some prev → ¬prev.piece.continues c.piece) :
    (coalesce (Q ++ [c.piece])).length = (coalesce Q).length + 1 ∧
    CacheOf ms₀ (ms.set (coalesce Q).length c) (Q ++ [c.piece]) := by
  have hget : ms[(coalesce Q).length]? = some (ms.get ⟨(coalesce Q).length, by rw [h.length]; exact hlt⟩) :=
    List.getElem?_eq_some_iff.2 ⟨by rw [h.length]; exact hlt, rfl⟩
  have hnotcont : ∀ z ∈ Q.getLast?, ¬z.continues c.piece := by
    intro z hz hcont
    have hne : (coalesce Q).length ≠ 0 := by
      rw [ne_eq, List.length_eq_zero_iff]
      refine coalesce_ne_nil fun h0 => ?_
      rw [h0] at hz
      cases hz
    obtain ⟨prev, hprev⟩ : ∃ prev, ms[(coalesce Q).length - 1]? = some prev :=
      ⟨_, List.getElem?_eq_getElem (by rw [h.length]; omega)⟩
    exact hnot prev hne hprev ((continues_last_iff (h.last hne hprev) hz _).2 hcont)
  have hnew := coalesce_concat_of_not hnotcont
  have hlen : (coalesce (Q ++ [c.piece])).length = (coalesce Q).length + 1 := by
    rw [hnew]
    simp
  have hlc : lastContinues (Q ++ [c.piece]) = false := by
    rw [lastContinues_concat]
    cases hz : Q.getLast? with
    | none => rfl
    | some z => simpa using hnotcont z hz
  obtain ⟨-, hset⟩ := take_set_last (y := c) hget
  refine ⟨hlen, ?_, ?_, fun _ => ?_, fun j hj => ?_⟩
  · simpa using h.length
  · rw [hlen, hset, List.map_append, h.runs, hnew]
    rfl
  · rw [hlen, hlc, List.getElem?_set_ne (by omega), h.behind _ (by omega)]
    rfl
  · rw [hlen] at hj
    rw [List.getElem?_set_ne (by omega), h.behind j (by omega)]

/-- One round of the fourth pass. -/
private theorem CacheOf.round {ms₀ ms ms' : List CacheEntry} {Q : List (Piece CStr)} (h : CacheOf ms₀ ms Q)
    {p : Memseg} {ps : List Memseg} (hp : p.addr64 ≠ 0) (hsum : total Q + p.size < 2 ^ 64)
    (hok : fourthPass hugefile (p :: ps) ms (coalesce Q).length = .ok ms') :
    ∃ ms₁, CacheOf ms₀ ms₁ (Q ++ [(p.cacheEntry hugefile).piece]) ∧
      fourthPass hugefile ps ms₁ (coalesce (Q ++ [(p.cacheEntry hugefile).piece])).length = .ok ms' := by
  obtain ⟨hlt, hfile, hround⟩ := fourthPass_round hp h.length_le hok
  have hclen : (p.cacheEntry hugefile).len = p.len := by
    obtain ⟨r, hr⟩ := Option.isSome_iff_exists.1 hfile
    rw [cacheEntry_of_some hr]
  rcases hround with ⟨prev, hne, hprev, hpath, hoff, hrest⟩ | ⟨hnot, hrest⟩
  · have hcont : prev.piece.continues (p.cacheEntry hugefile).piece := by
      simp [Piece.continues, CacheEntry.piece, hpath, hoff]
    obtain ⟨hlen, hnew⟩ := h.merge hlt hne hprev hcont (by rw [hclen]; exact hsum)
    rw [hclen] at hnew
    exact ⟨_, hnew, by rw [hlen]; exact hrest⟩
  · obtain ⟨hlen, hnew⟩ := h.push (c := p.cacheEntry hugefile) hlt (fun prev hne hprev hcont => by
      simp only [Piece.continues, CacheEntry.piece, UInt64.ofNat_toNat, decide_eq_true_eq] at hcont
      exact hnot prev hne hprev hcont)
    exact ⟨_, hnew, by rw [hlen]; exact hrest⟩

theorem CacheOf.fourthPass {ms₀ ms ms' : List CacheEntry} {Q : List (Piece CStr)} (h : CacheOf ms₀ ms Q)
    {P : List Memseg} (hP : Used P) (hsum : total Q + sizeSum P < 2 ^ 64) (m : Nat)
    (hok : fourthPass hugefile (P ++ freePages m) ms (coalesce Q).length = .ok ms') :
    CacheOf ms₀ ms' (Q ++ pagePieces hugefile P) := by
  induction P generalizing ms Q with
  | nil =>
    rw [List.nil_append, fourthPass_free] at hok
    cases hok
    simpa [pagePieces] using h
  | cons p P ih =>
    rw [sizeSum_cons] at hsum
    obtain ⟨ms₁, h₁, hrest⟩ := h.round (hP p (by simp)).1 (by omega) hok
    have hsize : (p.cacheEntry hugefile).piece.len ≤ p.size := by
      unfold Memseg.cacheEntry
      split
      · exact Nat.zero_le _
      · exact Nat.le_refl _
    have := ih h₁ (fun q hq => hP q (by simp [hq])) (by
      rw [total_append, total_cons, total_nil]
      omega) hrest
    simpa [pagePieces] using this

/-- Pages that all lie at offset 0 of their files are never merged. -/
theorem fourthPass_unmerged {P : List Memseg} (hP : Used P) (m : Nat) {ms ms' : List CacheEntry} {k : Nat}
    (hlen : ms.length = hostshmemMaxPages) (hk : k ≤ hostshmemMaxPages)
    (hzero : ∀ p ∈ P, ∀ r, hugefile p.addr64 = some r → r.2 = 0)
    (hprev : ∀ c, k ≠ 0 → ms[k - 1]? = some c → c.offset = 0 ∧ 0 < c.len.toNat)
    (hok : fourthPass hugefile (P ++ freePages m) ms k = .ok ms') :
    ms'.take (k + P.length) = ms.take k ++ P.map (Memseg.cacheEntry hugefile) := by
  induction P generalizing ms k with
  | nil =>
    rw [List.nil_append, fourthPass_free] at hok
    cases hok
    simp
  | cons p P ih =>
    obtain ⟨hlt, hfile, hround⟩ := fourthPass_round (hP p (by simp)).1 hk hok
    obtain ⟨r, hr⟩ := Option.isSome_iff_exists.1 hfile
    have hc := cacheEntry_of_some hr
    have hr0 := hzero p (by simp) r hr
    rcases hround with ⟨prev, hne, hget, -, hoff, -⟩ | ⟨-, hrest⟩
    · -- a run that starts at offset 0 ends behind it
      obtain ⟨h0, hpos⟩ := hprev prev hne hget
      rw [h0, hc, hr0, UInt64.zero_add] at hoff
      rw [hoff] at hpos
      exact absurd hpos (Nat.lt_irrefl 0)
    · have hget : ms[k]? = some (ms.get ⟨k, by omega⟩) := List.getElem?_eq_some_iff.2 ⟨by omega, rfl⟩
      obtain ⟨-, hset⟩ := take_set_last (y := p.cacheEntry hugefile) hget
      have h := ih (fun q hq => hP q (by simp [hq])) (by simpa using hlen) (by omega)
        (fun q hq => hzero q (by simp [hq])) (fun c _ hcget => by
          rw [Nat.add_sub_cancel, List.getElem?_set_self (by omega)] at hcget
          cases hcget
          rw [hc]
          exact ⟨hr0, (hP p (by simp)).2⟩) hrest
      rw [hset] at h
      rw [List.length_cons, show k + (P.length + 1) = k + 1 + P.length by omega, h]
      simp

end

end SoftPatchPanel.Hostshmem

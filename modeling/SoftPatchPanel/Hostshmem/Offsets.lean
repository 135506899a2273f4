import SoftPatchPanel.Hostshmem.FirstPass
import SoftPatchPanel.Hostshmem.SecondPass

/-!
# The third pass: offsets of the zones

After the second pass the pages of a zone are still neighbours.  The search of the third pass stops at the first of
them, because no other page holds the start of the zone, and the lengths it has added up by then are those of the
pages before it (`findOffset_eq`).  They do not leave the 64 bits, since the pages are disjoint.
-/

namespace SoftPatchPanel.Hostshmem

open Lib

/-- The number of bytes of a list of pages. -/
def sizeSum (P : List Memseg) : Nat := (P.map Memseg.size).sum

@[simp] theorem sizeSum_nil : sizeSum [] = 0 := rfl

@[simp] theorem sizeSum_cons (p : Memseg) (P : List Memseg) : sizeSum (p :: P) = p.size + sizeSum P := by
  simp [sizeSum]

@[simp] theorem sizeSum_append (P Q : List Memseg) : sizeSum (P ++ Q) = sizeSum P + sizeSum Q := by
  simp [sizeSum]

theorem sizeSum_perm {P Q : List Memseg} (h : P.Perm Q) : sizeSum P = sizeSum Q := (h.map Memseg.size).sum_nat

/-- Pages in ascending physical order fit between the first byte of the first and the last byte of the last. -/
private theorem sizeSum_le_of_sorted {P : List Memseg} {b : Nat}
    (hs : P.Pairwise (fun p q => p.physAddr.toNat + p.len.toNat ≤ q.physAddr.toNat))
    (hb : ∀ p ∈ P, p.physAddr.toNat + p.len.toNat ≤ b) :
    ∀ c, (∀ p ∈ P, c ≤ p.physAddr.toNat) → c ≤ b → c + sizeSum P ≤ b := by
  induction P with
  | nil => intro c _ hcb; simpa using hcb
  | cons p P ih =>
    intro c hc _
    rw [List.pairwise_cons] at hs
    have h1 := ih hs.2 (fun q hq => hb q (by simp [hq])) (p.physAddr.toNat + p.len.toNat) hs.1 (hb p (by simp))
    have h2 := hc p (by simp)
    rw [sizeSum_cons]
    unfold Memseg.size
    omega

theorem Collected.sizeSum_lt {L : Layout} {P : List Memseg} (h : Collected L P) : sizeSum P < 2 ^ 64 := by
  have := sizeSum_le_of_sorted (b := 2 ^ 64 - 1) h.sorted
    (fun p hp => by have := (h.isPage p hp).phys_end; omega) 0 (fun _ _ => Nat.zero_le _) (Nat.zero_le _)
  omega

theorem Collected.used {L : Layout} {P : List Memseg} (h : Collected L P) : Used P :=
  fun p hp => ⟨h.ne_zero p hp, (h.isPage p hp).len_pos⟩

/-! ### The search -/

private theorem findOffset_skip {a : UInt64} {A : List Memseg} (R : List Memseg)
    (hA : ∀ p ∈ A, ¬(p.addr64 ≤ a ∧ a < p.addr64 + p.len)) :
    ∀ off : UInt64, off.toNat + sizeSum A < 2 ^ 64 →
      ∃ off' : UInt64, off'.toNat = off.toNat + sizeSum A ∧ findOffset a (A ++ R) off = findOffset a R off' := by
  induction A with
  | nil => intro off _; exact ⟨off, by simp, rfl⟩
  | cons p A ih =>
    intro off hoff
    rw [sizeSum_cons] at hoff ⊢
    unfold Memseg.size at hoff ⊢
    have hstep : (off + p.len).toNat = off.toNat + p.len.toNat := by
      rw [UInt64.toNat_add, Nat.mod_eq_of_lt (by omega)]
    obtain ⟨off', h1, h2⟩ := ih (fun q hq => hA q (by simp [hq])) (off + p.len) (by omega)
    refine ⟨off', by omega, ?_⟩
    rw [List.cons_append, findOffset, ite_cond_eq_false _ _ (eq_false (hA p (by simp))), h2]

private theorem findOffset_none {a : UInt64} {P : List Memseg}
    (hP : ∀ p ∈ P, ¬(p.addr64 ≤ a ∧ a < p.addr64 + p.len)) (off : UInt64) : findOffset a P off = none := by
  induction P generalizing off with
  | nil => rfl
  | cons p P ih =>
    rw [findOffset, ite_cond_eq_false _ _ (eq_false (hP p (by simp)))]
    exact ih (fun q hq => hP q (by simp [hq])) _

private theorem holds_addr_iff {L : Layout} {p : Memseg} (hp : IsPage L p) (a : UInt64) :
    (p.addr64 ≤ a ∧ a < p.addr64 + p.len) ↔
      p.addr64.toNat ≤ a.toNat ∧ a.toNat < p.addr64.toNat + p.len.toNat := by
  rw [UInt64.le_iff_toNat_le, UInt64.lt_iff_toNat_lt, UInt64.toNat_add, Nat.mod_eq_of_lt hp.virt_end]

section

variable {L : Layout} {mz : Memzone} {s : Seg} {j n : Nat} {P : List Memseg}

private theorem eq_head_of_holds (h : ZoneAt L mz s j n) {p : Memseg} (hp : IsPage L p)
    (hold : p.addr64 ≤ mz.addr64 ∧ mz.addr64 < p.addr64 + p.len) :
    p = { physAddr := mz.span.phys, addr64 := mz.span.start, len := mz.hugepageSz } := by
  obtain ⟨h1, h2⟩ := (holds_addr_iff hp _).1 hold
  refine hp.eq_of_virt (h.isPage (List.mem_of_head? h.head?_pages)).1 h1 h2 h.start_le ?_
  have := h.lt_start
  rw [h.hugepageSz]
  exact this

/-- The offset of a zone whose pages are neighbours: the pages before them, and the place in the first one. -/
theorem findOffset_eq (h : ZoneAt L mz s j n) {A B : List Memseg} (hpage : ∀ p ∈ A ++ mz.pages ++ B, IsPage L p)
    (hnodup : (A ++ mz.pages ++ B).Nodup) (hsum : sizeSum (A ++ mz.pages ++ B) < 2 ^ 64) (m : Nat) :
    ∃ off : UInt64, findOffset mz.addr64 (A ++ mz.pages ++ B ++ freePages m) 0 = some off ∧
      off.toNat = sizeSum A + (mz.addr64.toNat - mz.span.start.toNat) := by
  obtain ⟨q, Q, hQ⟩ := List.exists_cons_of_ne_nil h.pages_ne_nil
  have hq : q = { physAddr := mz.span.phys, addr64 := mz.span.start, len := mz.hugepageSz } := by
    have := h.head?_pages
    rw [hQ] at this
    cases this; rfl
  rw [hQ] at hpage hnodup hsum ⊢
  have hA : ∀ p ∈ A, ¬(p.addr64 ≤ mz.addr64 ∧ mz.addr64 < p.addr64 + p.len) := by
    intro p hp hold
    have hpq := (eq_head_of_holds h (hpage p (by simp [hp])) hold).trans hq.symm
    rw [List.append_assoc, List.nodup_append] at hnodup
    exact hnodup.2.2 p hp q (by simp) hpq
  have hqsize : q.size = s.hugepageSz := by rw [hq]; exact h.hugepageSz
  simp only [sizeSum_append, sizeSum_cons, hqsize] at hsum
  obtain ⟨off, h1, h2⟩ := findOffset_skip (q :: Q ++ B ++ freePages m) hA 0 (by rw [UInt64.toNat_zero]; omega)
  rw [UInt64.toNat_zero, Nat.zero_add] at h1
  have hfirst : q.addr64 ≤ mz.addr64 ∧ mz.addr64 < q.addr64 + q.len := by
    refine (holds_addr_iff (hpage q (by simp)) _).2 ⟨?_, ?_⟩
    · rw [hq]; exact h.start_le
    · have := h.lt_start
      rw [hq, h.hugepageSz]; exact this
  have hle := h.start_le
  have hlt := h.lt_start
  have hsub : (mz.addr64 - q.addr64).toNat = mz.addr64.toNat - mz.span.start.toNat := by
    rw [UInt64.toNat_sub_of_le _ _ hfirst.1, hq]
  refine ⟨mz.addr64 - q.addr64 + off, ?_, ?_⟩
  · have : A ++ q :: Q ++ B ++ freePages m = A ++ (q :: Q ++ B ++ freePages m) := by simp
    rw [this, h2, List.cons_append, List.cons_append, findOffset, ite_cond_eq_true _ _ (eq_true hfirst)]
  · rw [UInt64.toNat_add, hsub, h1, Nat.mod_eq_of_lt (by omega)]; omega

/-- A zone on page 0 is not found. -/
theorem findOffset_page_zero (h : ZoneAt L mz s j n) (hstart : mz.span.start = 0) (hpage : ∀ p ∈ P, IsPage L p)
    (hne : ∀ p ∈ P, p.addr64 ≠ 0) (m : Nat) : findOffset mz.addr64 (P ++ freePages m) 0 = none := by
  apply findOffset_none
  intro p hp hold
  rcases List.mem_append.1 hp with hp | hp
  · have := eq_head_of_holds h (hpage p hp) hold
    exact hne p hp (by rw [this]; exact hstart)
  · rw [List.eq_of_mem_replicate hp] at hold
    exact absurd hold.2 (by rw [UInt64.lt_iff_toNat_lt]; exact Nat.not_lt_zero _)

end

theorem thirdPass_mz {pages : List Memseg} {es es' : List Entry} (h : thirdPass pages es = .ok es') :
    es'.map Entry.mz = es.map Entry.mz := by
  induction es generalizing es' with
  | nil => cases h; rfl
  | cons e es ih =>
    unfold thirdPass at h
    split at h
    · cases h; rfl
    · split at h
      · cases h
      · split at h
        · cases h
        · rename_i rest hrest
          cases h
          rw [List.map_cons, List.map_cons, ih hrest]

/-- The third pass writes an offset into each entry up to the first empty one and changes nothing else. -/
theorem thirdPass_ok {pages : List Memseg} {es E entry : List Entry} (hes : ∀ e ∈ es, e.mz.addr64 ≠ 0)
    (hE : ∀ e ∈ E, e.mz.addr64 = 0) (hok : thirdPass pages (es ++ E) = .ok entry) :
    ∃ es', entry = es' ++ E ∧ es'.map Entry.mz = es.map Entry.mz ∧
      ∀ e ∈ es', findOffset e.mz.addr64 pages 0 = some e.offset := by
  induction es generalizing entry with
  | nil =>
    refine ⟨[], ?_, rfl, by simp⟩
    cases E with
    | nil => cases hok; rfl
    | cons e E =>
      simp only [List.nil_append, thirdPass, hE e (by simp), ↓reduceIte] at hok
      cases hok; rfl
  | cons e es ih =>
    simp only [List.cons_append, thirdPass, hes e (by simp), ↓reduceIte] at hok
    split at hok
    · cases hok
    · rename_i off hoff
      split at hok
      · cases hok
      · rename_i entry' hrest
        cases hok
        obtain ⟨es', rfl, hmz, hall⟩ := ih (fun a ha => hes a (by simp [ha])) hrest
        refine ⟨{ e with offset := off } :: es', rfl, by simp [hmz], ?_⟩
        intro a ha
        rcases List.mem_cons.1 ha with rfl | ha
        · exact hoff
        · exact hall a ha

end SoftPatchPanel.Hostshmem

import SoftPatchPanel.Hostshmem.BuildConfig
import Mathlib.Data.List.Pairwise

/-!
# Memory layouts and their pages

A `Layout` is what the EAL has set up: memsegs that are contiguous in virtual and in physical memory, pairwise
disjoint in both, and made of hugepages.  A memzone lies inside one memseg (`Layout.Holds`).  The values that
`build_config` computes for a zone then are the hugepages around it (`Layout.zoneAt`), and two pages of a layout are
the same page or disjoint in both address spaces (`IsPage.eq_or_disjoint`).
-/

namespace SoftPatchPanel.Hostshmem

open Lib

/-- A memseg: a contiguous piece of virtual memory over a contiguous piece of physical memory. -/
structure Seg where
  virt : Nat
  phys : Nat
  len : Nat
  hugepageSz : Nat

/-- Two memsegs share no virtual address. -/
def Seg.VirtDisjoint (s t : Seg) : Prop := s.virt + s.len ≤ t.virt ∨ t.virt + t.len ≤ s.virt

/-- Two memsegs share no physical address. -/
def Seg.PhysDisjoint (s t : Seg) : Prop := s.phys + s.len ≤ t.phys ∨ t.phys + t.len ≤ s.phys

instance : Std.Symm Seg.VirtDisjoint := ⟨fun _ _ => Or.symm⟩

instance : Std.Symm Seg.PhysDisjoint := ⟨fun _ _ => Or.symm⟩

/-- The memsegs of a process.  The end of a memseg is an address again, as for every mapping of user space. -/
structure Layout where
  segs : List Seg
  pow2 : ∀ s ∈ segs, ∃ k, s.hugepageSz = 2 ^ k
  virt_aligned : ∀ s ∈ segs, s.hugepageSz ∣ s.virt
  phys_aligned : ∀ s ∈ segs, s.hugepageSz ∣ s.phys
  len_aligned : ∀ s ∈ segs, s.hugepageSz ∣ s.len
  virt_end : ∀ s ∈ segs, s.virt + s.len < 2 ^ 64
  phys_end : ∀ s ∈ segs, s.phys + s.len < 2 ^ 64
  virt_disjoint : segs.Pairwise Seg.VirtDisjoint
  phys_disjoint : segs.Pairwise Seg.PhysDisjoint

/-- The zone lies inside the memseg and carries its hugepage size and physical address. -/
structure Seg.Holds (s : Seg) (mz : Memzone) : Prop where
  virt_le : s.virt ≤ mz.addr64.toNat
  end_le : mz.addr64.toNat + mz.len.toNat ≤ s.virt + s.len
  hugepageSz : mz.hugepageSz.toNat = s.hugepageSz
  physAddr : mz.physAddr.toNat = s.phys + (mz.addr64.toNat - s.virt)

/-- The zone lies inside one memseg of the layout. -/
def Layout.Holds (L : Layout) (mz : Memzone) : Prop := ∃ s ∈ L.segs, s.Holds mz

/-! ### Pages -/

/-- `p` describes a hugepage of the layout, the way the first pass fills it in. -/
def IsPage (L : Layout) (p : Memseg) : Prop :=
  ∃ s ∈ L.segs, ∃ j, p.addr64.toNat = s.virt + j * s.hugepageSz ∧ p.physAddr.toNat = s.phys + j * s.hugepageSz ∧
    p.len.toNat = s.hugepageSz ∧ (j + 1) * s.hugepageSz ≤ s.len ∧ p.hugepageSz = 0 ∧ p.socketId = 0

theorem IsPage.len_pos {L : Layout} {p : Memseg} (h : IsPage L p) : 0 < p.len.toNat := by
  obtain ⟨s, hs, -, -, -, hlen, -⟩ := h
  obtain ⟨k, hk⟩ := L.pow2 s hs
  rw [hlen, hk]
  exact Nat.two_pow_pos k

theorem IsPage.virt_end {L : Layout} {p : Memseg} (h : IsPage L p) : p.addr64.toNat + p.len.toNat < 2 ^ 64 := by
  obtain ⟨s, hs, j, ha, -, hlen, hj, -⟩ := h
  have := L.virt_end s hs
  rw [Nat.add_mul, Nat.one_mul] at hj
  omega

theorem IsPage.phys_end {L : Layout} {p : Memseg} (h : IsPage L p) : p.physAddr.toNat + p.len.toNat < 2 ^ 64 := by
  obtain ⟨s, hs, j, -, hp, hlen, hj, -⟩ := h
  have := L.phys_end s hs
  rw [Nat.add_mul, Nat.one_mul] at hj
  omega

/-- Two pages of a layout are the same or disjoint, in virtual and in physical memory. -/
theorem IsPage.eq_or_disjoint {L : Layout} {p q : Memseg} (hp : IsPage L p) (hq : IsPage L q) :
    p = q ∨
      ((p.addr64.toNat + p.len.toNat ≤ q.addr64.toNat ∨ q.addr64.toNat + q.len.toNat ≤ p.addr64.toNat) ∧
        (p.physAddr.toNat + p.len.toNat ≤ q.physAddr.toNat ∨
          q.physAddr.toNat + q.len.toNat ≤ p.physAddr.toNat)) := by
  obtain ⟨s, hs, i, ha, hph, hlen, hi, hz, hsock⟩ := hp
  obtain ⟨t, ht, j, ha', hph', hlen', hj, hz', hsock'⟩ := hq
  rw [Nat.add_mul, Nat.one_mul] at hi hj
  by_cases hst : s = t
  · subst hst
    rcases Nat.lt_trichotomy i j with h | h | h
    · -- the earlier page ends where the next one starts, at the latest
      have := Nat.mul_le_mul_right s.hugepageSz h
      rw [Nat.succ_mul] at this
      right; omega
    · subst h
      left
      cases p; cases q
      simp only [Memseg.mk.injEq]
      simp only at *
      exact ⟨UInt64.toNat_inj.1 (by omega), UInt64.toNat_inj.1 (by omega), UInt64.toNat_inj.1 (by omega),
        by rw [hz, hz'], by rw [hsock, hsock']⟩
    · have := Nat.mul_le_mul_right s.hugepageSz h
      rw [Nat.succ_mul] at this
      right; omega
  · have hv := L.virt_disjoint.forall hs ht hst
    have hφ := L.phys_disjoint.forall hs ht hst
    unfold Seg.VirtDisjoint at hv
    unfold Seg.PhysDisjoint at hφ
    right; omega

/-- Pages that share a byte of virtual memory are the same. -/
theorem IsPage.eq_of_virt {L : Layout} {p q : Memseg} (hp : IsPage L p) (hq : IsPage L q) {a : Nat}
    (h₁ : p.addr64.toNat ≤ a) (h₂ : a < p.addr64.toNat + p.len.toNat) (h₃ : q.addr64.toNat ≤ a)
    (h₄ : a < q.addr64.toNat + q.len.toNat) : p = q := by
  rcases hp.eq_or_disjoint hq with h | ⟨h, -⟩
  · exact h
  · omega

/-! ### The pages of a zone -/

/-- `n` pages one after another. -/
def runPages (hp : UInt64) : UInt64 → UInt64 → Nat → List Memseg
  | _, _, 0 => []
  | start, phys, n + 1 => { physAddr := phys, addr64 := start, len := hp } :: runPages hp (start + hp) (phys + hp) n

/-- The pages that a zone touches. -/
def Memzone.pages (mz : Memzone) : List Memseg :=
  runPages mz.hugepageSz mz.span.start mz.span.phys (mz.span.len.toNat / mz.hugepageSz.toNat)

@[simp] theorem length_runPages (hp start phys : UInt64) (n : Nat) : (runPages hp start phys n).length = n := by
  induction n generalizing start phys with
  | zero => rfl
  | succ n ih => simp [runPages, ih]

theorem len_of_mem_runPages {hp start phys : UInt64} {n : Nat} {p : Memseg} (h : p ∈ runPages hp start phys n) :
    p.len = hp := by
  induction n generalizing start phys with
  | zero => simp [runPages] at h
  | succ n ih =>
    rcases List.mem_cons.1 h with rfl | h
    · rfl
    · exact ih h

private theorem getElem?_runPages {hp start phys : UInt64} {n : Nat} (hv : start.toNat + n * hp.toNat < 2 ^ 64)
    (hφ : phys.toNat + n * hp.toNat < 2 ^ 64) {i : Nat} (hi : i < n) :
    ∃ p, (runPages hp start phys n)[i]? = some p ∧ p.addr64.toNat = start.toNat + i * hp.toNat ∧
      p.physAddr.toNat = phys.toNat + i * hp.toNat ∧ p.len = hp ∧ p.hugepageSz = 0 ∧ p.socketId = 0 := by
  induction n generalizing start phys i with
  | zero => omega
  | succ n ih =>
    rw [Nat.add_mul, Nat.one_mul] at hv hφ
    cases i with
    | zero => exact ⟨_, rfl, by simp, by simp, rfl, rfl, rfl⟩
    | succ i =>
      have hs : (start + hp).toNat = start.toNat + hp.toNat := by
        rw [UInt64.toNat_add, Nat.mod_eq_of_lt (by omega)]
      have hp' : (phys + hp).toNat = phys.toNat + hp.toNat := by
        rw [UInt64.toNat_add, Nat.mod_eq_of_lt (by omega)]
      obtain ⟨p, h1, h2, h3, h4⟩ := @ih (start + hp) (phys + hp) (by omega) (by omega) i (by omega)
      refine ⟨p, by simpa [runPages] using h1, ?_, ?_, h4⟩
      · rw [h2, hs, Nat.add_mul]; omega
      · rw [h3, hp', Nat.add_mul]; omega

/-- Where a zone lies: its pages are the `n` pages of `s` from page `j` on, the first of them holds the start of the
zone and the last of them its last byte. -/
structure ZoneAt (L : Layout) (mz : Memzone) (s : Seg) (j n : Nat) : Prop where
  mem : s ∈ L.segs
  hugepageSz : mz.hugepageSz.toNat = s.hugepageSz
  start : mz.span.start.toNat = s.virt + j * s.hugepageSz
  phys : mz.span.phys.toNat = s.phys + j * s.hugepageSz
  len : mz.span.len.toNat = n * s.hugepageSz
  pos : 0 < n
  fits : j * s.hugepageSz + n * s.hugepageSz ≤ s.len
  start_le : mz.span.start.toNat ≤ mz.addr64.toNat
  lt_start : mz.addr64.toNat < mz.span.start.toNat + s.hugepageSz
  physAddr : mz.physAddr.toNat = mz.span.phys.toNat + (mz.addr64.toNat - mz.span.start.toNat)
  end_le : mz.addr64.toNat + mz.len.toNat ≤ mz.span.start.toNat + n * s.hugepageSz
  lt_end : mz.span.start.toNat + n * s.hugepageSz < mz.addr64.toNat + mz.len.toNat + s.hugepageSz

/-- Every non-empty zone of a layout has its place. -/
theorem Layout.zoneAt {L : Layout} {mz : Memzone} (h : L.Holds mz) (hpos : 0 < mz.len.toNat) :
    ∃ s j n, ZoneAt L mz s j n := by
  obtain ⟨s, hs, hvirt, hend, hhp, hphys⟩ := h
  have hpow : IsPow2 mz.hugepageSz := by rw [IsPow2, hhp]; exact L.pow2 s hs
  have hhp0 : 0 < s.hugepageSz := by rw [← hhp]; exact hpow.pos
  have hvend := L.virt_end s hs
  have hφend := L.phys_end s hs
  -- `d` is the distance of the zone from the start of its memseg
  obtain ⟨d, hd⟩ : ∃ d, mz.addr64.toNat = s.virt + d := ⟨mz.addr64.toNat - s.virt, by omega⟩
  have hdiv := Nat.div_add_mod d s.hugepageSz
  rw [Nat.mul_comm] at hdiv
  have hmod := Nat.mod_lt d hhp0
  have hstart : mz.span.start.toNat = s.virt + d / s.hugepageSz * s.hugepageSz := by
    refine (eq_alignFloor hpow ?_ ?_ ?_).symm
    · rw [hhp]; exact Nat.dvd_add (L.virt_aligned s hs) (Nat.dvd_mul_left _ _)
    · omega
    · rw [hhp]; omega
  have hpstart : mz.span.phys.toNat = s.phys + d / s.hugepageSz * s.hugepageSz := by
    refine (eq_alignFloor hpow ?_ ?_ ?_).symm
    · rw [hhp]; exact Nat.dvd_add (L.phys_aligned s hs) (Nat.dvd_mul_left _ _)
    · omega
    · rw [hhp]; omega
  -- the length from the start of the first page, which still fits into the memseg
  have hoff : (mz.addr64 - mz.span.start).toNat = d % s.hugepageSz := by
    rw [UInt64.toNat_sub_of_le _ _ (by rw [UInt64.le_iff_toNat_le]; omega)]; omega
  have hlen : (mz.len + (mz.addr64 - mz.span.start)).toNat = mz.len.toNat + d % s.hugepageSz := by
    rw [UInt64.toNat_add, hoff, Nat.mod_eq_of_lt (by omega)]
  have hM : s.hugepageSz ∣ s.len - d / s.hugepageSz * s.hugepageSz :=
    Nat.dvd_sub (L.len_aligned s hs) (Nat.dvd_mul_left _ _)
  have hM64 : s.len - d / s.hugepageSz * s.hugepageSz + s.hugepageSz ≤ 2 ^ 64 := by
    have hdvd := hpow.dvd_two_pow
    rw [hhp] at hdvd
    exact le_of_dvd_of_lt_add (Nat.dvd_add hM (Nat.dvd_refl _)) hdvd (by omega)
  have hceil : mz.span.len.toNat =
      (mz.len.toNat + d % s.hugepageSz + (s.hugepageSz - 1)) / s.hugepageSz * s.hugepageSz := by
    have hroom : (mz.len + (mz.addr64 - mz.span.start)).toNat + (mz.hugepageSz.toNat - 1) < 2 ^ 64 := by
      rw [hlen, hhp]; omega
    rw [← hlen, ← hhp]
    exact toNat_alignCeil hpow hroom
  have hn := Nat.div_add_mod (mz.len.toNat + d % s.hugepageSz + (s.hugepageSz - 1)) s.hugepageSz
  rw [Nat.mul_comm] at hn
  have hnmod := Nat.mod_lt (mz.len.toNat + d % s.hugepageSz + (s.hugepageSz - 1)) hhp0
  have hfit : (mz.len.toNat + d % s.hugepageSz + (s.hugepageSz - 1)) / s.hugepageSz * s.hugepageSz ≤
      s.len - d / s.hugepageSz * s.hugepageSz :=
    le_of_dvd_of_lt_add (Nat.dvd_mul_left _ _) hM (by omega)
  refine ⟨s, d / s.hugepageSz, (mz.len.toNat + d % s.hugepageSz + (s.hugepageSz - 1)) / s.hugepageSz,
    hs, hhp, hstart, hpstart, hceil, ?_, ?_, ?_, ?_, ?_, ?_, ?_⟩
  · exact Nat.div_pos (by omega) hhp0
  all_goals omega

section

variable {L : Layout} {mz : Memzone} {s : Seg} {j n : Nat}

theorem ZoneAt.hp_pos (h : ZoneAt L mz s j n) : 0 < s.hugepageSz := by
  obtain ⟨k, hk⟩ := L.pow2 s h.mem
  rw [hk]; exact Nat.two_pow_pos k

theorem ZoneAt.pages_eq (h : ZoneAt L mz s j n) :
    mz.pages = runPages mz.hugepageSz mz.span.start mz.span.phys n := by
  unfold Memzone.pages
  rw [h.len, h.hugepageSz, Nat.mul_div_cancel _ h.hp_pos]

theorem ZoneAt.getElem?_pages (h : ZoneAt L mz s j n) {i : Nat} (hi : i < n) :
    ∃ p, mz.pages[i]? = some p ∧ p.addr64.toNat = mz.span.start.toNat + i * s.hugepageSz ∧
      p.physAddr.toNat = mz.span.phys.toNat + i * s.hugepageSz ∧ p.len = mz.hugepageSz ∧
      p.hugepageSz = 0 ∧ p.socketId = 0 := by
  have hv := L.virt_end s h.mem
  have hφ := L.phys_end s h.mem
  have := h.fits
  rw [h.pages_eq, ← h.hugepageSz]
  refine getElem?_runPages ?_ ?_ hi
  · rw [h.start, h.hugepageSz]; omega
  · rw [h.phys, h.hugepageSz]; omega

theorem ZoneAt.length_pages (h : ZoneAt L mz s j n) : mz.pages.length = n := by
  rw [h.pages_eq, length_runPages]

theorem ZoneAt.isPage (h : ZoneAt L mz s j n) {p : Memseg} (hp : p ∈ mz.pages) :
    IsPage L p ∧ ∃ i < n, p.addr64.toNat = mz.span.start.toNat + i * s.hugepageSz ∧
      p.physAddr.toNat = mz.span.phys.toNat + i * s.hugepageSz := by
  obtain ⟨i, hi⟩ := List.mem_iff_getElem?.1 hp
  have hin : i < n := by
    rw [← h.length_pages]; exact (List.getElem?_eq_some_iff.1 hi).1
  obtain ⟨q, hq, ha, hφ, hlen, hz, hsock⟩ := h.getElem?_pages hin
  rw [hi] at hq
  cases hq
  have hle : (i + 1) * s.hugepageSz ≤ n * s.hugepageSz := Nat.mul_le_mul_right _ hin
  have hfits := h.fits
  have hst := h.start
  have hph := h.phys
  refine ⟨⟨s, h.mem, j + i, ?_, ?_, by rw [hlen, h.hugepageSz], ?_, hz, hsock⟩, i, hin, ha, hφ⟩
  · rw [Nat.add_mul]; omega
  · rw [Nat.add_mul]; omega
  · rw [Nat.add_assoc, Nat.add_mul]; omega

end

end SoftPatchPanel.Hostshmem

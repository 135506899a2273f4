import SoftPatchPanel.Malloc.Search

/-!
# The heaps at the start

`rte_eal_malloc_heap_init` makes one free element of each memseg (`built_init`, memseg by memseg), and the invariant
holds (`Built.inv`).
-/

namespace SoftPatchPanel.Malloc

open Lib

/-- The memsegs `done` have been added to empty heaps. -/
structure Built (c : MemConfig) (done : List (Nat × Memseg)) : Prop where
  start : ∀ p ∈ done, c.mem p.2.addr =
    { heap := p.2.socketId, ms := p.1, prev := 0, state := .elemFree, size := endElem p.2 - p.2.addr, pad := 0 }
  stop : ∀ p ∈ done, (c.mem (endElem p.2)).state = .elemBusy ∧ (c.mem (endElem p.2)).prev = p.2.addr
  listed : ∀ h i x, x ∈ (c.mallocHeaps h).freeHead i ↔
    ∃ p ∈ done, p.2.addr = x ∧ (c.mem x).heap = h ∧ listOf (c.mem x) = i
  nodup : ∀ h i, ((c.mallocHeaps h).freeHead i).Nodup

section

variable {c : MemConfig} {segs done : List (Nat × Memseg)} {p q : Nat × Memseg} {a : UInt64}

private theorem SegsOk.sublist (h : SegsOk segs) (hsub : done.Sublist segs) : SegsOk done where
  pos := fun p hp => h.pos p (hsub.subset hp)
  aligned := fun p hp => h.aligned p (hsub.subset hp)
  room := fun p hp => h.room p (hsub.subset hp)
  fits := fun p hp => h.fits p (hsub.subset hp)
  apart := h.apart.sublist hsub

private theorem SegsOk.not_mem (h : SegsOk (done ++ [p])) : p ∉ done := by
  intro hp
  have hroom := h.room p (by simp)
  have hself := (List.pairwise_append.1 h.apart).2.2 p hp p (by simp)
  omega

/-- The headers at the ends of two memsegs are four different ones. -/
private theorem SegsOk.headers (h : SegsOk segs) (hp : p ∈ segs) (hq : q ∈ segs) (hpq : p ≠ q) :
    q.2.addr ≠ p.2.addr ∧ q.2.addr ≠ Malloc.endElem p.2 ∧ Malloc.endElem q.2 ≠ p.2.addr ∧
      Malloc.endElem q.2 ≠ Malloc.endElem p.2 := by
  have hpe := h.endElem hp
  have hqe := h.endElem hq
  have hmeet : ∀ a b : UInt64, p.2.addr.toNat ≤ a.toNat → a.toNat < p.2.addr.toNat + p.2.len.toNat →
      q.2.addr.toNat ≤ b.toNat → b.toNat < q.2.addr.toNat + q.2.len.toNat → b ≠ a := by
    rintro a b h1 h2 h3 h4 rfl
    exact hpq (h.eq_of_meet hp hq ⟨h1, h2⟩ ⟨h3, h4⟩)
  refine ⟨hmeet _ _ ?_ ?_ ?_ ?_, hmeet _ _ ?_ ?_ ?_ ?_, hmeet _ _ ?_ ?_ ?_ ?_, hmeet _ _ ?_ ?_ ?_ ?_⟩ <;> omega

private theorem mem_mallocHeapAddMemseg_addr (c : MemConfig) (hne : endElem p.2 ≠ p.2.addr) :
    (mallocHeapAddMemseg c p.2.socketId p.1 p.2).mem p.2.addr =
      { heap := p.2.socketId, ms := p.1, prev := 0, state := .elemFree, size := endElem p.2 - p.2.addr, pad := 0 } := by
  simp only [mallocHeapAddMemseg, MemConfig.mem_modifyHeap, mem_mallocElemFreeListInsert, MemConfig.mem_modify_self,
    mallocElemMkend, mallocElemInit, MemConfig.mem_modify_of_ne _ _ hne.symm]

private theorem mem_mallocHeapAddMemseg_end (c : MemConfig) (hne : endElem p.2 ≠ p.2.addr) :
    ((mallocHeapAddMemseg c p.2.socketId p.1 p.2).mem (endElem p.2)).state = .elemBusy ∧
      ((mallocHeapAddMemseg c p.2.socketId p.1 p.2).mem (endElem p.2)).prev = p.2.addr := by
  simp only [mallocHeapAddMemseg, MemConfig.mem_modifyHeap, mem_mallocElemFreeListInsert,
    MemConfig.mem_modify_of_ne _ _ hne, mallocElemMkend, MemConfig.mem_modify_self, and_self]

private theorem mem_mallocHeapAddMemseg_of_ne (c : MemConfig) (h1 : a ≠ p.2.addr) (h2 : a ≠ endElem p.2) :
    (mallocHeapAddMemseg c p.2.socketId p.1 p.2).mem a = c.mem a := by
  simp only [mallocHeapAddMemseg, MemConfig.mem_modifyHeap, mem_mallocElemFreeListInsert,
    MemConfig.mem_modify_of_ne _ _ h1, mallocElemMkend, MemConfig.mem_modify_of_ne _ _ h2, mallocElemInit]

private theorem freeHead_mallocHeapAddMemseg (c : MemConfig) (hne : endElem p.2 ≠ p.2.addr) (h i : Nat) :
    ((mallocHeapAddMemseg c p.2.socketId p.1 p.2).mallocHeaps h).freeHead i =
      if h = p.2.socketId ∧ i = listOf ((mallocHeapAddMemseg c p.2.socketId p.1 p.2).mem p.2.addr) then
        p.2.addr :: (c.mallocHeaps h).freeHead i
      else (c.mallocHeaps h).freeHead i := by
  rw [mem_mallocHeapAddMemseg_addr c hne]
  simp only [mallocHeapAddMemseg]
  rw [freeHead_modifyHeap (f := fun heap => { heap with totalSize := heap.totalSize + (endElem p.2 - p.2.addr) })
    fun _ => rfl, freeHead_mallocElemFreeListInsert]
  simp only [mallocElemMkend, mallocElemInit, MemConfig.mem_modify_of_ne _ _ hne.symm, MemConfig.mem_modify_self,
    MemConfig.mallocHeaps_modify]

private theorem Built.add (h : Built c done) (hok : SegsOk (done ++ [p])) :
    Built (mallocHeapAddMemseg c p.2.socketId p.1 p.2) (done ++ [p]) := by
  have hp : p ∈ done ++ [p] := by simp
  have hne : endElem p.2 ≠ p.2.addr := (ne_of_toNat_lt (hok.endElem hp).1).symm
  have hheaders : ∀ q ∈ done, q.2.addr ≠ p.2.addr ∧ q.2.addr ≠ endElem p.2 ∧ endElem q.2 ≠ p.2.addr ∧
      endElem q.2 ≠ endElem p.2 := fun q hq =>
    hok.headers hp (by simp [hq]) fun hpq => hok.not_mem (hpq ▸ hq)
  have hself := mem_mallocHeapAddMemseg_addr c hne
  have hlist := freeHead_mallocHeapAddMemseg c hne
  refine ⟨fun q hq => ?_, fun q hq => ?_, fun k i x => ?_, fun k i => ?_⟩
  · rcases List.mem_append.1 hq with hq | hq
    · rw [mem_mallocHeapAddMemseg_of_ne c (hheaders q hq).1 (hheaders q hq).2.1]
      exact h.start q hq
    · rw [List.mem_singleton.1 hq]
      exact hself
  · rcases List.mem_append.1 hq with hq | hq
    · rw [mem_mallocHeapAddMemseg_of_ne c (hheaders q hq).2.2.1 (hheaders q hq).2.2.2]
      exact h.stop q hq
    · rw [List.mem_singleton.1 hq]
      exact mem_mallocHeapAddMemseg_end c hne
  · rw [hlist]
    have hold : x ∈ (c.mallocHeaps k).freeHead i ↔ ∃ q ∈ done, q.2.addr = x ∧
        ((mallocHeapAddMemseg c p.2.socketId p.1 p.2).mem x).heap = k ∧
        listOf ((mallocHeapAddMemseg c p.2.socketId p.1 p.2).mem x) = i := by
      rw [h.listed]
      refine exists_congr fun q => and_congr_right fun hq => and_congr_right ?_
      rintro rfl
      rw [mem_mallocHeapAddMemseg_of_ne c (hheaders q hq).1 (hheaders q hq).2.1]
    have hsplit : (∃ q ∈ done ++ [p], q.2.addr = x ∧
        ((mallocHeapAddMemseg c p.2.socketId p.1 p.2).mem x).heap = k ∧
        listOf ((mallocHeapAddMemseg c p.2.socketId p.1 p.2).mem x) = i) ↔
        x ∈ (c.mallocHeaps k).freeHead i ∨ p.2.addr = x ∧
          ((mallocHeapAddMemseg c p.2.socketId p.1 p.2).mem x).heap = k ∧
          listOf ((mallocHeapAddMemseg c p.2.socketId p.1 p.2).mem x) = i := by
      rw [hold]
      simp only [List.mem_append, List.mem_singleton, or_and_right, exists_or, exists_eq_left]
    rw [hsplit]
    have hheap : ((mallocHeapAddMemseg c p.2.socketId p.1 p.2).mem p.2.addr).heap = p.2.socketId := by rw [hself]
    split
    · rename_i hcond
      rw [List.mem_cons, or_comm]
      refine or_congr Iff.rfl ⟨?_, fun hx => hx.1.symm⟩
      rintro rfl
      exact ⟨rfl, hheap.trans hcond.1.symm, hcond.2.symm⟩
    · rename_i hcond
      refine ⟨Or.inl, ?_⟩
      rintro (hx | ⟨rfl, h1, h2⟩)
      · exact hx
      · exact absurd ⟨h1.symm.trans hheap, h2.symm⟩ hcond
  · rw [hlist]
    split
    · refine List.nodup_cons.2 ⟨fun hx => ?_, h.nodup k i⟩
      obtain ⟨q, hq, hqx, -⟩ := (h.listed k i _).1 hx
      exact (hheaders q hq).1 hqx
    · exact h.nodup k i

private theorem Built.foldl (h : Built c done) (hok : SegsOk (done ++ segs)) :
    Built (segs.foldl (fun c p => mallocHeapAddMemseg c p.2.socketId p.1 p.2) c) (done ++ segs) := by
  induction segs generalizing c done with
  | nil =>
    rw [List.append_nil]
    exact h
  | cons p segs ih =>
    rw [← List.singleton_append, ← List.append_assoc] at hok ⊢
    exact ih (h.add (hok.sublist (List.sublist_append_left ..))) hok

private theorem memseg_foldl (segs : List (Nat × Memseg)) (c : MemConfig) :
    (segs.foldl (fun c p => mallocHeapAddMemseg c p.2.socketId p.1 p.2) c).memseg = c.memseg := by
  induction segs generalizing c with
  | nil => rfl
  | cons p segs ih => exact ih _

@[simp] theorem segs_rteEalMallocHeapInit (c : MemConfig) : (rteEalMallocHeapInit c).segs = c.segs := by
  rw [MemConfig.segs, MemConfig.segs, rteEalMallocHeapInit, memseg_foldl]

/-- One element for each memseg. -/
theorem Built.inv (h : Built c c.segs) (hok : SegsOk c.segs) : Inv c (fun p => [p.2.addr]) [] where
  segs := hok
  chunked := fun p hp => by
    have hstart := h.start p hp
    have hend := hok.endElem hp
    have hsize : (c.mem p.2.addr).size.toNat = (endElem p.2).toNat - p.2.addr.toNat := by
      rw [hstart]
      exact UInt64.toNat_sub_of_le _ _ (UInt64.le_iff_toNat_le.2 hend.1.le)
    have haligned := hok.aligned p hp
    refine ⟨⟨rfl, ?_, ?_⟩, ⟨?_, (h.stop p hp).2, trivial⟩, ?_, ?_, ?_, ?_, (h.stop p hp).1⟩
    · change 0 < (c.mem p.2.addr).size.toNat
      omega
    · change p.2.addr.toNat + (c.mem p.2.addr).size.toNat = _
      omega
    · rw [hstart]
    all_goals
      intro x hx
      rw [List.mem_singleton.1 hx]
    · rw [hstart]
    · rw [hstart]
    · rw [hsize]
      exact Nat.dvd_sub hend.2.2 haligned
    · rw [hstart]
      exact Or.inl rfl
  listed := fun k i x => by
    rw [h.listed]
    constructor
    · rintro ⟨p, hp, rfl, h1, h2⟩
      exact ⟨⟨p, hp, by simp⟩, ⟨by rw [h.start p hp], by simp⟩, h1, h2⟩
    · rintro ⟨⟨p, hp, hx⟩, -, h1, h2⟩
      exact ⟨p, hp, (List.mem_singleton.1 hx).symm, h1, h2⟩
  nodup := h.nodup
  apart := fun p _ => List.isChain_singleton _

/-- `rte_eal_malloc_heap_init`, when there was nothing in the heaps. -/
theorem built_init (hok : SegsOk c.segs) (hzero : ∀ k i, (c.mallocHeaps k).freeHead i = []) :
    Built (rteEalMallocHeapInit c) (rteEalMallocHeapInit c).segs := by
  have hnone : Built c [] := by
    refine ⟨by simp, by simp, fun k i x => ?_, fun k i => ?_⟩
    · rw [hzero]
      simp
    · rw [hzero]
      exact List.nodup_nil
  rw [segs_rteEalMallocHeapInit]
  exact hnone.foldl hok

theorem Built.not_busy (h : Built c c.segs) (x : UInt64) : ¬Busy c (fun p => [p.2.addr]) x := by
  intro hbusy
  obtain ⟨p, hp, hx⟩ := hbusy.1
  rw [List.mem_singleton.1 hx] at hbusy
  exact not_busy_of_free (by rw [h.start p hp]) hbusy

end

end SoftPatchPanel.Malloc

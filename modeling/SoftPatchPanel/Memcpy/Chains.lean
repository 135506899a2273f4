import SoftPatchPanel.Memcpy.Places

/-!
# Is a copy the same packet?

`copy_mbufs` copies all fields of the first segment and the bytes of that segment, and links nothing to it.  The number
of segments and the length are those of the whole packet, so the copy is a well-formed packet with the same bytes
exactly when the packet has one segment.  The offset of the bytes is copied too, so they are inside the new buffer
exactly when its data room reaches as far (`samePacket_iff`).
-/

namespace SoftPatchPanel.Memcpy

open Pktmbuf

section

variable {mem : Mem} {rxm txm segs : List Addr} {rx tx : Addr}

/-- The copy of one packet of a burst. -/
private theorem copyLoop_getElem {j : Nat} (hrx : rxm[j]? = some rx) (htx : txm[j]? = some tx) (hnodup : txm.Nodup)
    (hnew : rx ∉ txm) : (copyLoop mem rxm txm).mbuf tx = copyMbuf (mem.mbuf rx) (mem.mbuf tx) := by
  induction j generalizing mem rxm txm with
  | zero =>
    cases rxm with
    | nil => simp at hrx
    | cons r rxm =>
      cases txm with
      | nil => simp at htx
      | cons t txm =>
        simp only [List.getElem?_cons_zero, Option.some.injEq] at hrx htx
        subst hrx htx
        rw [copyLoop, copyLoop_of_not_mem (List.nodup_cons.1 hnodup).1, Mem.modify_mbuf_self]
  | succ j ih =>
    cases rxm with
    | nil => simp at hrx
    | cons r rxm =>
      cases txm with
      | nil => simp at htx
      | cons t txm =>
        simp only [List.getElem?_cons_succ] at hrx htx
        obtain ⟨ht, hnodup⟩ := List.nodup_cons.1 hnodup
        rw [List.mem_cons, not_or] at hnew
        have hne : tx ≠ t := fun h => ht (h ▸ List.mem_of_getElem? htx)
        rw [copyLoop, ih hrx htx hnodup hnew.2, Mem.modify_mbuf_of_ne _ hnew.1, Mem.modify_mbuf_of_ne _ hne]

private theorem bytes_copyMbuf (r t : Mbuf) : (copyMbuf r t).bytes = r.bytes := by
  refine List.map_congr_left fun o ho => ?_
  have hlt := List.mem_range.1 ho
  exact if_pos ⟨Nat.le_add_right _ _, Nat.add_lt_add_left hlt _⟩

/-- A buffer that is linked to nothing is the only segment of its packet. -/
private theorem linked_single (h : (mem.mbuf tx).next = none) : mem.Linked (some tx) segs ↔ segs = [tx] := by
  cases segs with
  | nil => simp [Mem.Linked]
  | cons a segs =>
    cases segs with
    | nil => simp [Mem.Linked, h]
    | cons b segs => simp [Mem.Linked, h]

/-- Each packet of a burst has a copy that is a well-formed packet with the same bytes inside its buffers, exactly when
it has one segment and the data room of the copy reaches as far as its bytes. -/
theorem samePacket_iff (pool : PoolId) {j : Nat} (hrx : rxm[j]? = some rx) (htx : txm[j]? = some tx)
    (hnodup : txm.Nodup) (hnew : ∀ b ∈ segs, b ∉ txm) (hpacket : mem.WellFormed rx segs) :
    (∃ segs', (copyMbufs mem pool rxm (some txm)).2.WellFormed tx segs' ∧
      (copyMbufs mem pool rxm (some txm)).2.payload segs' = mem.payload segs ∧
      ∀ a ∈ segs', ((copyMbufs mem pool rxm (some txm)).2.mbuf a).InRoom) ↔
    segs.length = 1 ∧
      (mem.mbuf rx).pkt.dataOff.toNat + (mem.mbuf rx).pkt.dataLen.toNat ≤ (mem.mbuf tx).bufLen.toNat := by
  obtain ⟨rest, rfl⟩ : ∃ rest, segs = rx :: rest := by
    cases segs with
    | nil => exact absurd hpacket.linked id
    | cons a rest => exact ⟨rest, by rw [hpacket.linked.1]⟩
  have hcopy : (copyMbufs mem pool rxm (some txm)).2.mbuf tx = copyMbuf (mem.mbuf rx) (mem.mbuf tx) :=
    copyLoop_getElem hrx htx hnodup (hnew rx (by simp))
  have hnext : ((copyMbufs mem pool rxm (some txm)).2.mbuf tx).next = none := by
    rw [hcopy]
    rfl
  have hpkt : ((copyMbufs mem pool rxm (some txm)).2.mbuf tx).pkt = (mem.mbuf rx).pkt := by
    rw [hcopy]
    rfl
  have hroom : ((copyMbufs mem pool rxm (some txm)).2.mbuf tx).InRoom ↔
      (mem.mbuf rx).pkt.dataOff.toNat + (mem.mbuf rx).pkt.dataLen.toNat ≤ (mem.mbuf tx).bufLen.toNat := by
    rw [Mbuf.InRoom, hcopy]
    exact Iff.rfl
  constructor
  · rintro ⟨segs', hformed, -, hin⟩
    obtain rfl := (linked_single hnext).1 hformed.linked
    refine ⟨?_, hroom.1 (hin tx (by simp))⟩
    rw [← hpacket.nbSegs, ← hpkt, hformed.nbSegs]
    rfl
  · rintro ⟨hone, hfits⟩
    obtain rfl : rest = [] := by simpa using hone
    refine ⟨[tx], ⟨(linked_single hnext).2 rfl, ?_, ?_⟩, ?_, by simpa using hroom.2 hfits⟩
    · rw [hpkt]
      exact hpacket.nbSegs
    · have hlen := hpacket.pktLen
      simp only [Mem.dataLen, List.foldr_cons, List.foldr_nil] at hlen ⊢
      rw [hpkt]
      exact hlen
    · simp only [Mem.payload, List.flatMap_cons, List.flatMap_nil, hcopy, bytes_copyMbuf]

end

/-! ### Packets of one and of two segments -/

/-- The buffers 0 and 1 are received, the second of them as a segment behind the first one when `two` says so; buffer 2
is free. -/
def receivedPacket (two : Bool) : Mem where
  mbuf := fun
    | 0 =>
      { pool := 0
        refcnt := 1
        next := if two then some 1 else none
        pkt := { dataLen := 64, pktLen := if two then 164 else 64, nbSegs := if two then 2 else 1 }
        data := fun o => o.toUInt8 }
    | 1 => { pool := 0, refcnt := 1, pkt := { dataLen := 100 } }
    | _ => { pool := 1 }
  free := fun p => if p = 1 then {2} else 0

theorem samePacket_oneSegment :
    ∃ segs', (copyMbufs (receivedPacket false) 1 [0] (some [2])).2.WellFormed 2 segs' ∧
      (copyMbufs (receivedPacket false) 1 [0] (some [2])).2.payload segs' = (receivedPacket false).payload [0] ∧
      ∀ a ∈ segs', ((copyMbufs (receivedPacket false) 1 [0] (some [2])).2.mbuf a).InRoom :=
  (@samePacket_iff (receivedPacket false) [0] [2] [0] 0 2 1 0 rfl rfl (by decide) (by decide)
    ⟨⟨rfl, trivial⟩, rfl, rfl⟩).2 ⟨rfl, by decide⟩

/-- The copy of a packet of two segments says that it has two, and has one. -/
theorem twoSegments_torn :
    (receivedPacket true).WellFormed 0 [0, 1] ∧
      ((copyMbufs (receivedPacket true) 1 [0] (some [2])).2.mbuf 2).pkt.nbSegs = 2 ∧
      ¬∃ segs', (copyMbufs (receivedPacket true) 1 [0] (some [2])).2.WellFormed 2 segs' := by
  refine ⟨⟨⟨rfl, rfl, trivial⟩, rfl, rfl⟩, rfl, ?_⟩
  rintro ⟨segs', hformed⟩
  obtain rfl := (linked_single rfl).1 hformed.linked
  exact absurd hformed.nbSegs (by decide)

end SoftPatchPanel.Memcpy
